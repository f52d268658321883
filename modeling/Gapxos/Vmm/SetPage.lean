import Gapxos.Vmm.Rights

/-! set_page as a remapping: which walks it changes. A table it draws from the PMM is
linked in with whatever the frame held before, so the other 511 entries are exposed. -/
namespace Gapxos
open Radix

theorem nextTable_absent {s : Phys} {f k : Nat} {rest : List Nat} {i : Fin 512} {fl : Word}
    (flag : FlagWord fl) (absent : present (s.mem f i) = false)
    (stack : s.freePages = rest ++ [4096 * k]) (bound : k < 2 ^ 36) :
    nextTable s f i fl =
      (⟨store s.mem f i (BitVec.ofNat 64 (4096 * k) ||| pagePresent ||| fl), rest,
        s.misses⟩, k) := by
  have frame : frameOf (BitVec.ofNat 64 (4096 * k) ||| pagePresent ||| fl) = k := by
    rw [frameOf_eq, (child_eq_some.mp (newEntry_child flag (by omega))).2.2, Nat.mod_eq_of_lt bound]
  have draw : pmmAllocPage s = (4096 * k, { s with freePages := rest }) := by
    rw [pmmAllocPage, stack]
    simp
  simp [nextTable, absent, draw, Phys.write, store_store, frame]

/- The frames the PMM hands out next, the last one first: distinct frames below 2^48 that
are no table of the address space. -/
structure FreshTop (s : Phys) (cr3 : Nat) (rest top : List Nat) : Prop where
  stack : s.freePages = rest ++ top.map (4096 * ·)
  distinct : top.Nodup
  frame : ∀ k ∈ top, k < 2 ^ 36 ∧ Unused child 3 s.mem cr3 k

/-- Every present entry of a walk is a table the kernel can reach. -/
def SmallWalk (t : List Word) : Prop :=
  ∀ e ∈ t, present e = true → large e = false ∧ hwFrame e < 2 ^ 36

theorem walk_of_widened {m m' : Mem} {cr3 w : Nat} {fl : Word}
    (h : Widened fl (trace child m cr3 (path w)) (trace child m' cr3 (path w))) :
    walk m' cr3 w = walk m cr3 w :=
  translate_congr h.1.length_eq.symm h.2.symm

theorem FreshTop.level {fl : Word} {cr3 : Nat} {s s' : Phys} {rest top : List Nat}
    (level : LevelSpec fl cr3 s s') (fresh : FreshTop s cr3 rest top) :
    FreshTop s' cr3 rest top := by
  refine ⟨level.stack.trans fresh.stack, fresh.distinct, fun k hk => ⟨(fresh.frame k hk).1, ?_⟩⟩
  intro p hp at_p
  exact (fresh.frame k hk).2 p hp ((level.paths cr3 p).symm.trans at_p)

theorem link_top {s : Phys} {cr3 f k : Nat} {q : List (Fin 512)} {i : Fin 512} {fl : Word}
    {rest top : List Nat} (tables : TableTree s.mem cr3) (flag : FlagWord fl)
    (reach : tableAt child s.mem cr3 q = some f) (hq : q.length ≤ 2)
    (absent : present (s.mem f i) = false) (fresh : FreshTop s cr3 rest (top ++ [k]))
    (childless : ∀ j, child (s.mem k j) = none) :
    ∃ s' e, nextTable s f i fl = (s', k) ∧ s'.mem = store s.mem f i e ∧ child e = some k ∧
      k ≠ f ∧ TableTree s'.mem cr3 ∧ tableAt child s'.mem cr3 (q ++ [i]) = some k ∧
      FreshTop s' cr3 rest top := by
  have new := fresh.frame k (by simp)
  have edge := newEntry_child flag (Nat.lt_trans new.1 (by decide))
  have apart : k ≠ f := fun same => new.2 q (by omega) (same ▸ reach)
  have stack : s.freePages = (rest ++ top.map (4096 * ·)) ++ [4096 * k] := by
    rw [fresh.stack]; simp
  refine ⟨_, _, nextTable_absent flag absent stack new.1, rfl, edge, apart,
    tree_link tables reach (by omega) edge new.2 childless, ?_, rfl, ?_, ?_⟩
  · have at_k := tableAt_link (i := i) tables reach (by omega) edge apart childless []
    simpa using at_k
  · exact (List.nodup_append.mp fresh.distinct).1
  · intro g hg
    have old := fresh.frame g (List.mem_append_left _ hg)
    have other : g ≠ k := by
      intro same
      exact (List.nodup_append.mp fresh.distinct).2.2 g hg k (by simp) same
    exact ⟨old.1, unused_link tables reach (by omega) edge apart childless other old.2⟩

theorem translate_absent {v : Nat} {t : List Word} {e : Word} (last : t.getLast? = some e)
    (absent : present e = false) : translate v t = none := by
  cases found : translate v t with
  | none => rfl
  | some f =>
    obtain ⟨x, last', hp⟩ := translate_last found
    cases Option.some.inj (last.symm.trans last')
    rw [absent] at hp
    cases hp

/- Something that is read off the last entry of a walk and its level. The words with `blank`
say nothing, and neither does a missing table. -/
structure Observes {β : Type} (blank : Word → Prop) (obs : Nat → List Word → β) (nothing : β) :
    Prop where
  absent : ∀ e, blank e → present e = false
  congr : ∀ w t t', t.length = t'.length → t.getLast? = t'.getLast? → obs w t = obs w t'
  empty : ∀ w t e, t.getLast? = some e → blank e → obs w t = nothing
  missing : ∀ w t e, t.length ≤ 3 → t.getLast? = some e → present e = false → obs w t = nothing

theorem translate_observes : Observes (fun e => present e = false) translate none where
  absent _ := id
  congr _ _ _ := translate_congr
  empty _ _ _ := translate_absent
  missing _ _ _ _ := translate_absent

section Observe

variable {β : Type} {blank : Word → Prop} {obs : Nat → List Word → β} {nothing : β}

theorem Observes.link (observes : Observes blank obs nothing) {m : Mem} {cr3 f k : Nat}
    {q : List (Fin 512)} {i : Fin 512} {e : Word} (tables : TableTree m cr3)
    (reach : tableAt child m cr3 q = some f) (hq : q.length ≤ 2)
    (absent : present (m f i) = false) (edge : child e = some k) (apart : k ≠ f)
    (empty : ∀ j, blank (m k j)) (w : Nat) :
    obs w (trace child (store m f i e) cr3 (path w)) = obs w (trace child m cr3 (path w)) := by
  by_cases through : q ++ [i] <+: path w
  · obtain ⟨r, split⟩ := through
    rw [List.append_assoc, List.singleton_append] at split
    have long : q.length + (r.length + 1) = 4 := by
      simpa [path_length] using congrArg List.length split
    have upper := length_trace reach
    rw [← split, trace_link tables reach (by omega) edge apart r fun j =>
      child_absent (observes.absent _ (empty j)), trace_append reach]
    cases r with
    | nil => simp at long; omega
    | cons j r =>
      have after := observes.empty w (trace child m cr3 q ++ e :: [m k j]) (m k j)
        (by simp [List.getLast?_append]) (empty j)
      have before := observes.missing w (trace child m cr3 q ++ trace child m f (i :: j :: r))
        (m f i) (by simp [trace, child_absent absent]; omega)
        (by simp [trace, child_absent absent]) absent
      simpa using after.trans before.symm
  · rw [trace_store e tables reach (by omega) (by simp [path_length]) through]

theorem Observes.fill (observes : Observes blank obs nothing) {s : Phys} {cr3 f : Nat}
    {q p : List (Fin 512)} {fl : Word} {rest top : List Nat} (tables : TableTree s.mem cr3)
    (flag : FlagWord fl) (reach : tableAt child s.mem cr3 q = some f)
    (len : q.length + p.length ≤ 3) (small : SmallWalk (trace child s.mem f p))
    (fresh : FreshTop s cr3 rest top) (enough : p.length ≤ top.length)
    (empty : ∀ k ∈ top, ∀ j, blank (s.mem k j)) :
    TableTree (openPath s f fl p).1.mem cr3 ∧
      tableAt child (openPath s f fl p).1.mem cr3 (q ++ p) = some (openPath s f fl p).2 ∧
      ∀ w, obs w (trace child (openPath s f fl p).1.mem cr3 (path w)) =
        obs w (trace child s.mem cr3 (path w)) := by
  induction p generalizing s f q top with
  | nil => exact ⟨tables, by rw [List.append_nil]; exact reach, fun _ => rfl⟩
  | cons i p ih =>
    simp only [List.length_cons] at len enough
    by_cases there : present (s.mem f i) = true
    · -- the table exists: its entry is widened and the next level starts from it
      have entry := small (s.mem f i) (by simp [trace]) there
      have edge : child (s.mem f i) = some (hwFrame (s.mem f i)) :=
        child_eq_some.mpr ⟨there, entry.1, rfl⟩
      have level := level_write tables flag reach (by omega) edge
      have below := store_below (i := i) (s.mem f i ||| fl) tables reach (by omega) (q ++ [i]) p _
        (tableAt_snoc reach edge) (by simp; omega) (.inl (by simp))
      have small' : SmallWalk (trace child (s.write f i (s.mem f i ||| fl)).mem
          (hwFrame (s.mem f i)) p) := by
        rw [Phys.write_mem, below.2]
        intro e he
        exact small e (by simp [trace, edge, he])
      have rest := ih level.tables ((level.paths _ _).trans (tableAt_snoc reach edge))
        (by simp; omega) small' (fresh.level level) (by omega) (by
          intro k hk j
          have other : k ≠ f := fun same => (fresh.frame k hk).2 q (by omega) (same ▸ reach)
          rw [Phys.write_mem, store_other_frame other]
          exact empty k hk j)
      simp only [openPath, nextTable_present flag edge entry.2]
      rw [List.append_assoc, List.singleton_append] at rest
      refine ⟨rest.1, rest.2.1, fun w => (rest.2.2 w).trans ?_⟩
      have wide := level.walks (path w) rfl
      exact observes.congr w _ _ wide.1.length_eq.symm wide.2.symm
    · -- the table is missing: the top frame is linked in, and it is empty
      have absent : present (s.mem f i) = false := by simpa using there
      obtain ⟨init, k, split⟩ := (List.eq_nil_or_concat top).resolve_left (by
        rintro rfl
        simp at enough)
      rw [List.concat_eq_append] at split
      subst split
      have blank := fun j => observes.absent _ (empty k (by simp) j)
      obtain ⟨s', e, eq, mem, edge, apart, tables', at_k, fresh'⟩ :=
        link_top tables flag reach (by omega) absent fresh fun j => child_absent (blank j)
      have keep : ∀ g ∈ init ++ [k], s'.mem g = s.mem g := by
        intro g hg
        have other : g ≠ f := fun same => (fresh.frame g hg).2 q (by omega) (same ▸ reach)
        rw [mem, store_other_frame other]
      have small' : SmallWalk (trace child s'.mem k p) := by
        intro x hx hp
        cases p with
        | nil => cases hx
        | cons j p =>
          simp only [trace, keep k (by simp), child_absent (blank j), List.mem_singleton] at hx
          rw [hx, blank j] at hp
          cases hp
      have rest := ih tables' at_k (by simp; omega) small' fresh' (by simpa using enough) (by
        intro g hg j
        rw [keep g (List.mem_append_left _ hg)]
        exact empty g (List.mem_append_left _ hg) j)
      simp only [openPath, eq]
      rw [List.append_assoc, List.singleton_append] at rest
      refine ⟨rest.1, rest.2.1, fun w => (rest.2.2 w).trans ?_⟩
      rw [mem]
      exact observes.link tables reach (by omega) absent edge apart (empty k (by simp)) w

end Observe

/-- The remapping law: `v` now leads to `paddr`, every other page where it led before. -/
def RemapLaw (s : Phys) (pml4t v paddr : Nat) (flags : PageFlags) : Prop :=
  walk (setPage s pml4t v paddr flags).mem (pml4t / 4096) v = some (paddr / 4096) ∧
    ∀ w, pageOf w ≠ pageOf v →
      walk (setPage s pml4t v paddr flags).mem (pml4t / 4096) w = walk s.mem (pml4t / 4096) w

theorem setPage_mem (s : Phys) (pml4t v paddr : Nat) (flags : PageFlags) :
    (setPage s pml4t v paddr flags).mem =
      let r := openPath s (pml4t / 4096) (tableFlags flags) ((path v).take 3)
      store r.1.mem r.2 (Fin.ofNat 512 (v / 2 ^ 12)) (leafEntry paddr flags) := by
  simp only [setPage, getPageTableEntry_masked, Phys.write_mem]

theorem leaf_walk {m : Mem} {cr3 v pt : Nat} {flags : PageFlags} (tables : TableTree m cr3)
    (upper : tableAt child m cr3 ((path v).take 3) = some pt) (paddr : Nat)
    (mapped : flags.present = true) :
    let m' := store m pt (Fin.ofNat 512 (v / 2 ^ 12)) (leafEntry paddr flags)
    walk m' cr3 v = some (paddr / 4096 % 2 ^ 36) ∧
      ∀ w, pageOf w ≠ pageOf v → walk m' cr3 w = walk m cr3 w := by
  have walks := leaf_store (e := leafEntry paddr flags) tables upper
  refine ⟨?_, fun w other => by rw [walk, walks.1 w other, walk]⟩
  have three := length_trace upper
  have leaf : ∀ t : List Word, t.length = 3 →
      translate v (t ++ [leafEntry paddr flags]) = some (paddr / 4096 % 2 ^ 36) := by
    intro t ht
    obtain ⟨a, b, c, rfl⟩ := List.length_eq_three.mp ht
    simp only [List.cons_append, List.nil_append, translate, (leafEntry_bits paddr flags).1,
      mapped, if_true, leafEntry_frame]
  rw [walk, walks.2]
  exact leaf _ three

theorem law_of_upper {s : Phys} {pml4t v paddr : Nat} {flags : PageFlags}
    (tables : TableTree s.mem (pml4t / 4096)) (upper : UpperPresent s.mem (pml4t / 4096) v)
    (low : LowWalk (trace child s.mem (pml4t / 4096) ((path v).take 3)))
    (small : paddr < 2 ^ 48) (mapped : flags.present = true) :
    RemapLaw s pml4t v paddr flags := by
  obtain ⟨pt, upper⟩ := upper
  obtain ⟨s', eq, level, _⟩ := openPath_present tables (tableFlags_flagWord flags) (q := []) rfl
    (by simp [path]) upper low
  have leaf := leaf_walk level.tables ((level.paths _ _).trans upper) paddr mapped
  rw [Nat.mod_eq_of_lt (by omega)] at leaf
  rw [RemapLaw, setPage_mem]
  simp only [eq]
  exact ⟨leaf.1, fun w other => (leaf.2 w other).trans (walk_of_widened (level.walks _ rfl))⟩

theorem law_of_empty {s : Phys} {pml4t v paddr : Nat} {flags : PageFlags} {rest top : List Nat}
    (tables : TableTree s.mem (pml4t / 4096))
    (path_ok : SmallWalk (trace child s.mem (pml4t / 4096) ((path v).take 3)))
    (fresh : FreshTop s (pml4t / 4096) rest top) (enough : 3 ≤ top.length)
    (empty : ∀ k ∈ top, ∀ j, present (s.mem k j) = false)
    (small : paddr < 2 ^ 48) (mapped : flags.present = true) :
    RemapLaw s pml4t v paddr flags := by
  have opened := translate_observes.fill tables (tableFlags_flagWord flags) (q := [])
    (p := (path v).take 3) rfl (Nat.le_refl 3) path_ok fresh enough empty
  have leaf := leaf_walk opened.1 opened.2.1 paddr mapped
  rw [Nat.mod_eq_of_lt (by omega)] at leaf
  rw [RemapLaw, setPage_mem]
  exact ⟨leaf.1, fun w other => (leaf.2 w other).trans (opened.2.2 w)⟩

theorem path_surjective {p : List (Fin 512)} (four : p.length = 4) : ∃ w, path w = p := by
  match p, four with
  | [a, b, c, d], _ =>
    refine ⟨a * 2 ^ 39 + b * 2 ^ 30 + c * 2 ^ 21 + d * 2 ^ 12, ?_⟩
    simp only [path, List.cons.injEq, Fin.ext_iff, Fin.ofNat, and_true]
    omega

/-- Memory that differs from `m` at most in what the frames of `top` hold. -/
def Recycled (m m' : Mem) (top : List Nat) : Prop := ∀ f, f ∉ top → m' f = m f

section Recycle

variable {s : Phys} {cr3 : Nat} {rest top : List Nat} {m' : Mem}

theorem recycled_agree (fresh : FreshTop s cr3 rest top) (same : Recycled s.mem m' top) :
    ∀ p f, p.length ≤ 3 → tableAt child s.mem cr3 p = some f → s.mem f = m' f := by
  intro p f hp at_p
  refine (same f fun member => ?_).symm
  exact (fresh.frame f member).2 p hp at_p

theorem FreshTop.recycle (fresh : FreshTop s cr3 rest top) (same : Recycled s.mem m' top) :
    FreshTop { s with mem := m' } cr3 rest top := by
  refine ⟨fresh.stack, fresh.distinct, fun k hk => ⟨(fresh.frame k hk).1, ?_⟩⟩
  intro p hp at_p
  rw [tableAt_agree (recycled_agree fresh same) (by omega)] at at_p
  exact (fresh.frame k hk).2 p hp at_p

end Recycle

/-- A present large-page entry: what a recycled data page may well hold. -/
def staleWord : Word := 0x81#64

/-- Frame `k` full of stale entries except at `j`, the frames below it empty. -/
def staleMem (m : Mem) (init : List Nat) (k : Nat) (j : Fin 512) : Mem := fun f i =>
  if f = k then (if i = j then 0 else staleWord) else if f ∈ init then 0 else m f i

theorem staleMem_childless (m : Mem) (init : List Nat) (k : Nat) (j i : Fin 512) :
    child (staleMem m init k j k i) = none := by
  unfold staleMem
  rw [if_pos rfl]
  split <;> decide

theorem staleMem_recycled (m : Mem) (init : List Nat) (k : Nat) (j : Fin 512) :
    Recycled m (staleMem m init k j) (init ++ [k]) := by
  intro f hf
  simp only [List.mem_append, List.mem_singleton, not_or] at hf
  funext i
  simp [staleMem, hf.1, hf.2]

theorem translate_stale {w : Nat} {t : List Word} {e : Word} (ht : t.length ≤ 2) :
    translate w (t ++ [e, staleWord]) ≠ none := by
  have bits : present staleWord = true ∧ large staleWord = true := by decide
  match t, ht with
  | [], _ => simp [translate, bits]
  | [_], _ => simp [translate, bits]
  | [_, _], _ => simp [translate, bits]

/- A missing table on the way to `v`, and on top of the stack a frame with a stale entry at
another index: the page behind that entry was unmapped and is mapped afterwards. -/
theorem stale_exposed {s : Phys} {pml4t v paddr f k : Nat} {flags : PageFlags}
    {q r r' : List (Fin 512)} {i j x : Fin 512} {rest init : List Nat}
    (tables : TableTree s.mem (pml4t / 4096)) (split : (path v).take 3 = q ++ i :: r)
    (tail : r ++ [Fin.ofNat 512 (v / 2 ^ 12)] = j :: r')
    (reach : tableAt child s.mem (pml4t / 4096) q = some f) (absent : present (s.mem f i) = false)
    (low : LowWalk (trace child s.mem (pml4t / 4096) q))
    (fresh : FreshTop s (pml4t / 4096) rest (init ++ [k])) (enough : 2 ≤ init.length)
    (childless : ∀ y, child (s.mem k y) = none) (blank : present (s.mem k j) = false)
    (empty : ∀ g ∈ init, ∀ y, present (s.mem g y) = false)
    (other : x ≠ j) (stale : s.mem k x = staleWord) (mapped : flags.present = true) :
    ¬ RemapLaw s pml4t v paddr flags := by
  have flag := tableFlags_flagWord flags
  have full : path v = q ++ i :: j :: r' := by
    rw [path_split, split, List.append_assoc, List.cons_append, tail]
  have len : q.length + (r.length + 1) = 3 := by
    simpa [path] using (congrArg List.length split).symm
  have len' : r.length = r'.length := by simpa using congrArg List.length tail
  obtain ⟨w, at_w⟩ := path_surjective (p := q ++ i :: x :: r') (by simp; omega)
  have page : pageOf w ≠ pageOf v := by
    intro same
    have eq := (path_eq_iff w v).mpr same
    rw [at_w, full] at eq
    simp only [List.append_cancel_left_eq, List.cons.injEq, true_and] at eq
    exact other eq.1
  -- the tables above the missing one are only widened
  obtain ⟨s₁, eq₁, level, _⟩ :=
    openPath_present tables flag (q := []) rfl (by simp; omega) reach low
  have same₁ : ∀ g y, child (s.mem g y) = none → s₁.mem g y = s.mem g y := level.touched
  have absent₁ : present (s₁.mem f i) = false := by
    rw [same₁ f i (child_absent absent), absent]
  -- then the stale frame is linked in
  obtain ⟨s₂, e, eq₂, mem₂, edge, apart, tables₂, at_k, fresh₂⟩ :=
    link_top level.tables flag ((level.paths _ _).trans reach) (by omega) absent₁
      (fresh.level level) (fun y => by rw [same₁ k y (childless y), childless y])
  have same₂ : ∀ g, g ≠ f → ∀ y, child (s.mem g y) = none → s₂.mem g y = s.mem g y := by
    intro g hg y none
    rw [mem₂, store_other_frame hg, same₁ g y none]
  have exposed : walk s₂.mem (pml4t / 4096) w ≠ none := by
    have walk₂ := trace_link (i := i) level.tables ((level.paths _ _).trans reach) (by omega) edge
      apart (x :: r') (fun y => by rw [same₁ k y (childless y), childless y])
    have front := length_trace ((level.paths _ _).trans reach)
    rw [walk, at_w, mem₂, walk₂]
    simp only [List.head?_cons, Option.map_some, Option.toList_some, same₁ k x (childless x), stale]
    exact translate_stale (by omega)
  -- and the rest of the call leaves that page alone
  have small₂ : SmallWalk (trace child s₂.mem k r) := by
    intro u hu hp
    cases r with
    | nil => cases hu
    | cons y r =>
      simp only [List.cons_append, List.cons.injEq] at tail
      simp only [trace, same₂ k apart y (childless y), childless y, List.mem_singleton] at hu
      rw [hu, tail.1, blank] at hp
      cases hp
  have empty₂ : ∀ g ∈ init, ∀ y, present (s₂.mem g y) = false := by
    intro g hg y
    have unused := (fresh.frame g (List.mem_append_left _ hg)).2
    have hf : g ≠ f := fun eq => unused q (by omega) (eq ▸ reach)
    rw [same₂ g hf y (child_absent (empty g hg y)), empty g hg y]
  have opened := translate_observes.fill tables₂ flag at_k (by simp; omega) small₂ fresh₂
    (by omega) empty₂
  have run : openPath s (pml4t / 4096) (tableFlags flags) ((path v).take 3) =
      openPath s₂ k (tableFlags flags) r := by
    rw [split, openPath_append, eq₁, openPath, eq₂]
  have leaf := leaf_walk opened.1 (by
    rw [split, ← List.singleton_append, ← List.append_assoc]; exact opened.2.1) paddr mapped
  have unmapped : walk s.mem (pml4t / 4096) w = none := by
    rw [walk, at_w, trace_append reach]
    exact translate_absent (e := s.mem f i) (by simp [trace, child_absent absent]) absent
  rintro ⟨_, frame⟩
  apply exposed
  have same : walk (openPath s₂ k (tableFlags flags) r).1.mem (pml4t / 4096) w =
    walk s₂.mem (pml4t / 4096) w := opened.2.2 w
  rw [← same, ← leaf.2 w page, ← run, ← setPage_mem, frame w page, unmapped]

theorem stale_breaks {s : Phys} {pml4t v paddr : Nat} {flags : PageFlags} {rest top : List Nat}
    (tables : TableTree s.mem (pml4t / 4096))
    (path_ok : SmallWalk (trace child s.mem (pml4t / 4096) ((path v).take 3)))
    (fresh : FreshTop s (pml4t / 4096) rest top) (enough : 3 ≤ top.length)
    (missing : ¬ UpperPresent s.mem (pml4t / 4096) v) (mapped : flags.present = true) :
    ∃ m', Recycled s.mem m' top ∧ ¬ RemapLaw { s with mem := m' } pml4t v paddr flags := by
  have none : tableAt child s.mem (pml4t / 4096) ((path v).take 3) = none := by
    cases found : tableAt child s.mem (pml4t / 4096) ((path v).take 3) with
    | none => rfl
    | some pt => exact absurd ⟨pt, found⟩ missing
  obtain ⟨q, i, r, f, split, reach, stop⟩ := tableAt_eq_none none
  have len : q.length + (r.length + 1) = 3 := by
    simpa [path] using (congrArg List.length split).symm
  obtain ⟨init, k, shape⟩ := (List.eq_nil_or_concat top).resolve_left (by
    rintro rfl
    simp at enough)
  rw [List.concat_eq_append] at shape
  subst shape
  -- the index of `v` in the frame about to be linked stays empty
  obtain ⟨j, r', tail⟩ : ∃ j r', r ++ [Fin.ofNat 512 (v / 2 ^ 12)] = j :: r' := by
    cases r with
    | nil => exact ⟨_, _, rfl⟩
    | cons j r => exact ⟨j, _, rfl⟩
  have recycled := staleMem_recycled s.mem init k j
  have agree := recycled_agree fresh recycled
  have walks : ∀ p, p.length ≤ 4 → trace child (staleMem s.mem init k j) (pml4t / 4096) p =
      trace child s.mem (pml4t / 4096) p := fun p hp => trace_agree agree hp
  have paths := fun p hp => tableAt_agree (p := p) agree hp
  have used : staleMem s.mem init k j f = s.mem f := (agree q f (by omega) reach).symm
  have member : s.mem f i ∈ trace child s.mem (pml4t / 4096) ((path v).take 3) := by
    rw [split, trace_append reach]
    simp [trace]
  have absent : present (s.mem f i) = false := by
    by_contra there
    rw [Bool.not_eq_false] at there
    have entry := path_ok _ member there
    rw [child_eq_some.mpr ⟨there, entry.1, rfl⟩] at stop
    cases stop
  have absent' : present (staleMem s.mem init k j f i) = false := by rw [used]; exact absent
  have next : j + 1 ≠ j := by
    intro same
    have value := congrArg Fin.val same
    simp only [Fin.val_add, Fin.val_one] at value
    omega
  refine ⟨staleMem s.mem init k j, recycled, ?_⟩
  refine stale_exposed (x := j + 1) (tree_agree agree tables) split tail
    ((paths q (by omega)).trans reach) absent' ?_ (fresh.recycle recycled)
    (by simpa using enough) (staleMem_childless s.mem init k j) ?_ ?_ next ?_ mapped
  · intro e he hp
    rw [walks q (by omega)] at he
    refine (path_ok e ?_ hp).2
    rw [split, trace_append reach]
    exact List.mem_append_left _ he
  · simp [staleMem, present]
  · intro g hg y
    have distinct := List.nodup_append.mp fresh.distinct
    have apart : g ≠ k := fun same => distinct.2.2 g hg k (by simp) same
    simp [staleMem, apart, hg, present]
  · simp only [staleMem, if_true, if_neg next]

/-- set_page obeys the remapping law whatever the free frames hold exactly when it draws
none of them; with frames that hold no present word it obeys it in any case. -/
theorem setPage_remaps_iff (s : Phys) (pml4t v paddr : Nat) (flags : PageFlags)
    (rest top : List Nat) (tables : TableTree s.mem (pml4t / 4096))
    (path_ok : SmallWalk (trace child s.mem (pml4t / 4096) ((path v).take 3)))
    (fresh : FreshTop s (pml4t / 4096) rest top) (enough : 3 ≤ top.length)
    (small : paddr < 2 ^ 48) (mapped : flags.present = true) :
    ((∀ m', Recycled s.mem m' top → RemapLaw { s with mem := m' } pml4t v paddr flags) ↔
      UpperPresent s.mem (pml4t / 4096) v) ∧
    ∀ m', Recycled s.mem m' top → (∀ k ∈ top, ∀ j, present (m' k j) = false) →
      RemapLaw { s with mem := m' } pml4t v paddr flags := by
  refine ⟨⟨?_, ?_⟩, ?_⟩
  · intro always
    by_contra missing
    obtain ⟨m', recycled, broken⟩ := stale_breaks tables path_ok fresh enough missing mapped
    exact broken (always m' recycled)
  · rintro ⟨pt, upper⟩ m' recycled
    have agree := recycled_agree fresh recycled
    refine law_of_upper (tree_agree agree tables)
      ⟨pt, (tableAt_agree agree (by simp [path])).trans upper⟩ ?_ small mapped
    rw [trace_agree agree (by simp [path])]
    exact fun e he hp => (path_ok e he hp).2
  · intro m' recycled empty
    have agree := recycled_agree fresh recycled
    refine law_of_empty (tree_agree agree tables) ?_ (fresh.recycle recycled) enough empty small
      mapped
    rw [trace_agree agree (by simp [path])]
    exact path_ok

theorem setPage_remaps_chain :
    UpperPresent chainMem 1 0x5000 ∧
      RemapLaw ⟨chainMem, [0x7000, 0x6000, 0x5000], 0⟩ 0x1000 0x5000 0x8000
        ⟨true, true, false, true, true⟩ := by
  have fresh : FreshTop ⟨chainMem, [0x7000, 0x6000, 0x5000], 0⟩ 1 [] [7, 6, 5] := by
    refine ⟨rfl, by decide, ?_⟩
    intro k hk
    simp only [List.mem_cons, List.not_mem_nil, or_false] at hk
    refine ⟨by omega, fun p hp at_p => ?_⟩
    have ends := (chainMem_tableAt at_p).2
    omega
  have clean := chainMem_clean (v := 0x5000) rfl
  have path_ok : SmallWalk (trace child chainMem 1 ((path 0x5000).take 3)) := by
    intro e he there
    refine ⟨?_, (clean.entries e he).2⟩
    have walk : trace child chainMem 1 ((path 0x5000).take 3) =
        [chainMem 1 0, chainMem 2 0, chainMem 3 0] := by
      rw [show (path 0x5000).take 3 = [0, 0, 0] from rfl]
      simp [trace, chainMem_child]
    rw [walk] at he
    revert e
    simp [chainMem, large]
  have law := setPage_remaps_iff ⟨chainMem, [0x7000, 0x6000, 0x5000], 0⟩ 0x1000 0x5000 0x8000
    ⟨true, true, false, true, true⟩ [] [7, 6, 5] chainMem_tree path_ok fresh (by decide)
    (by decide) rfl
  exact ⟨clean.upper, law.1.mpr clean.upper chainMem fun _ _ => rfl⟩

theorem only_root {m : Mem} {cr3 f : Nat} {p : List (Fin 512)}
    (empty : ∀ i, child (m cr3 i) = none) (at_p : tableAt child m cr3 p = some f) :
    p = [] ∧ f = cr3 := by
  cases p with
  | nil => exact ⟨rfl, (Option.some.inj at_p).symm⟩
  | cons i p => simp [tableAt, empty] at at_p

/-- An empty PML4 and a frame whose word 1 still reads as a large page: mapping page 0
also maps the page at 1 GiB. -/
theorem setPage_exposes_stale_entry :
    let s : Phys := ⟨staleMem (fun _ _ => 0) [4, 3] 2 0, [0x4000, 0x3000, 0x2000], 0⟩
    TableTree s.mem 1 ∧ SmallWalk (trace child s.mem 1 ((path 0).take 3)) ∧
      FreshTop s 1 [] [4, 3, 2] ∧ walk s.mem 1 0x40000000 = none ∧
      walk (setPage s 0x1000 0 0x5000 ⟨true, true, false, true, true⟩).mem 1 0x40000000 = some 0 ∧
      ¬ RemapLaw s 0x1000 0 0x5000 ⟨true, true, false, true, true⟩ := by
  intro s
  have only : ∀ p f, tableAt child s.mem 1 p = some f → p = [] ∧ f = 1 := fun _ _ =>
    only_root fun i => by simp [s, staleMem, child, present]
  have before : walk s.mem 1 0x40000000 = none := by decide
  have after : walk (setPage s 0x1000 0 0x5000 ⟨true, true, false, true, true⟩).mem 1 0x40000000 =
      some 0 := by decide
  refine ⟨?_, ?_, ⟨rfl, by decide, ?_⟩, before, after, ?_⟩
  · intro p q f _ _ at_p at_q
    rw [(only p f at_p).1, (only q f at_q).1]
  · have first : trace child s.mem 1 ((path 0).take 3) = [0] := by decide
    intro e he there
    rw [first, List.mem_singleton] at he
    subst he
    cases there
  · intro k hk
    simp only [List.mem_cons, List.not_mem_nil, or_false] at hk
    refine ⟨by omega, fun p _ at_p => ?_⟩
    have root := (only p k at_p).2
    omega
  · intro law
    have kept := law.2 0x40000000 (by decide)
    rw [show (0x1000 : Nat) / 4096 = 1 from rfl, before, after] at kept
    cases kept

end Gapxos
