import Gapxos.Vmm.Tlb

/-! What each frame is used for. A ledger gives every frame one role: free, a page table,
the memory behind one page, or taken by the nodes of the tree. `Matches` says that memory
and the free stack are as the ledger has it; a frame then has no second use. -/
namespace Gapxos
open Radix

inductive Role
  | other
  | free
  | table
  | page (p : Nat)
  | node
deriving DecidableEq, Repr

/-- A frame that the walker reads as a table, at any level. -/
def IsTable (m : Mem) (cr3 f : Nat) : Prop :=
  ∃ p : List (Fin 512), p.length ≤ 3 ∧ tableAt child m cr3 p = some f

structure Matches (cr3 : Nat) (role : Nat → Role) (s : Phys) : Prop where
  tree : TableTree s.mem cr3
  distinct : s.freePages.Nodup
  aligned : ∀ a ∈ s.freePages, a % 4096 = 0
  low : ∀ f, role f ≠ .other → f < 2 ^ 36
  pages : ∀ f p, role f = .page p → p < 2 ^ 36
  free : ∀ f, 4096 * f ∈ s.freePages ↔ role f = .free
  table : ∀ f, IsTable s.mem cr3 f ↔ role f = .table
  owner : ∀ v f, ownerAt s.mem cr3 v = some (4096 * f) ↔ role f = .page (pageOf v)
  walks : ∀ v f, ownerAt s.mem cr3 v = some (4096 * f) → walk s.mem cr3 v = some f

/-- What a call may do to the ledger: the pages of `P` may change hands, the frames of `T`
may be taken for nodes, and free frames may become tables. No table goes away. -/
structure Evolves (cr3 : Nat) (P T : Nat → Prop) (s s' : Phys) (role role' : Nat → Role) :
    Prop where
  other : ∀ f, role' f = .other ↔ role f = .other
  node : ∀ f, role f = .node → role' f = .node
  taken : ∀ f, role' f = .node → role f = .node ∨ T f
  page : ∀ f p, ¬ P p → (role' f = .page p ↔ role f = .page p)
  paths : ∀ p f, p.length ≤ 3 → tableAt child s.mem cr3 p = some f →
    tableAt child s'.mem cr3 p = some f

section Ledger

variable {cr3 v k : Nat} {role role' role'' : Nat → Role} {s s' s'' : Phys} {P Q T U : Nat → Prop}

theorem Evolves.refl (P T : Nat → Prop) (s : Phys) (role : Nat → Role) :
    Evolves cr3 P T s s role role :=
  ⟨fun _ => .rfl, fun _ => id, fun _ => .inl, fun _ _ _ => .rfl, fun _ _ _ => id⟩

theorem Evolves.trans (first : Evolves cr3 P T s s' role role')
    (second : Evolves cr3 P T s' s'' role' role'') : Evolves cr3 P T s s'' role role'' where
  other f := (second.other f).trans (first.other f)
  node f h := second.node f (first.node f h)
  taken f h := (second.taken f h).elim (first.taken f) .inr
  page f p out := (second.page f p out).trans (first.page f p out)
  paths p f short reach := second.paths p f short (first.paths p f short reach)

theorem Evolves.mono (evolves : Evolves cr3 P T s s' role role') (sub : ∀ p, P p → Q p)
    (sub' : ∀ f, T f → U f) : Evolves cr3 Q U s s' role role' where
  other := evolves.other
  node := evolves.node
  taken f h := (evolves.taken f h).imp_right (sub' f)
  page f p out := evolves.page f p fun inside => out (sub p inside)
  paths := evolves.paths

theorem Evolves.upper (evolves : Evolves cr3 P T s s' role role')
    (upper : UpperPresent s.mem cr3 v) : UpperPresent s'.mem cr3 v :=
  upper.elim fun pt reach => ⟨pt, evolves.paths _ _ (by simp [path]) reach⟩

theorem mask_frame (e : Word) :
    (e &&& maskRemove12l).toNat = 4096 * (e.toNat / 4096 % 2 ^ 36) := by
  have page : (e &&& maskRemove12l).toNat % 2 ^ 12 = 0 := by
    rw [BitVec.toNat_and, Nat.and_mod_two_pow, show maskRemove12l.toNat % 2 ^ 12 = 0 from by decide,
      Nat.and_zero]
  have frame : (e &&& maskRemove12l).toNat / 2 ^ 12 = e.toNat / 4096 % 2 ^ 36 := by
    rw [BitVec.toNat_and, Nat.and_div_two_pow,
      show maskRemove12l.toNat / 2 ^ 12 = 2 ^ 36 - 1 from by decide, Nat.and_two_pow_sub_one_eq_mod]
  omega

theorem leafOwner_frame {t : List Word} {a : Nat} (owned : leafOwner t = some a) :
    ∃ f, a = 4096 * f := by
  unfold leafOwner at owned
  split at owned
  · rename_i e
    rw [ownerOf] at owned
    split at owned
    · exact ⟨_, (Option.some.inj owned).symm.trans (mask_frame e)⟩
    · cases owned
  · cases owned

theorem evolves_update {x : Role} (was : role k ≠ .other ∧ role k ≠ .node)
    (before : ∀ p, role k = .page p → P p) (now : x ≠ .other ∧ x ≠ .node)
    (after : ∀ p, x = .page p → P p)
    (paths : ∀ p f, p.length ≤ 3 → tableAt child s.mem cr3 p = some f →
      tableAt child s'.mem cr3 p = some f) :
    Evolves cr3 P T s s' role (Function.update role k x) := by
  refine ⟨fun f => ?_, fun f is => ?_, fun f is => .inl ?_, fun f p out => ?_, paths⟩
  · by_cases here : f = k
    · subst here
      simp [was.1, now.1]
    · rw [Function.update_of_ne here]
  · rw [Function.update_of_ne (by rintro rfl; exact was.2 is), is]
  · by_cases here : f = k
    · subst here
      rw [Function.update_self] at is
      exact absurd is now.2
    · rwa [Function.update_of_ne here] at is
  · by_cases here : f = k
    · subst here
      rw [Function.update_self]
      exact ⟨fun is => absurd (after p is) out, fun is => absurd (before p is) out⟩
    · rw [Function.update_of_ne here]

theorem ownerAt_frame {m : Mem} {a : Nat} (owned : ownerAt m cr3 v = some a) :
    ∃ f, a = 4096 * f :=
  leafOwner_frame owned

theorem Matches.unowned (mat : Matches cr3 role s) :
    ownerAt s.mem cr3 v = none ↔ ∀ f, role f ≠ .page (pageOf v) := by
  constructor
  · intro none f is
    rw [(mat.owner v f).mpr is] at none
    cases none
  · intro nowhere
    cases owned : ownerAt s.mem cr3 v with
    | none => rfl
    | some a =>
      obtain ⟨f, rfl⟩ := ownerAt_frame owned
      exact absurd ((mat.owner v f).mp owned) (nowhere f)

theorem Matches.one {f : Nat} (mat : Matches cr3 role s) (first : role f = .page (pageOf v))
    (second : role k = .page (pageOf v)) : f = k := by
  have equal := ((mat.owner v f).mpr first).symm.trans ((mat.owner v k).mpr second)
  have := Option.some.inj equal
  omega

theorem Matches.level {fl : Word} (mat : Matches cr3 role s) (level : LevelSpec fl cr3 s s') :
    Matches cr3 role s' := by
  have owners : ∀ v, ownerAt s'.mem cr3 v = ownerAt s.mem cr3 v := by
    intro v
    have wide := level.walks (path v) rfl
    exact leafOwner_congr wide.1.length_eq.symm wide.2.symm
  have tables : ∀ f, IsTable s'.mem cr3 f ↔ IsTable s.mem cr3 f := by
    intro f
    simp only [IsTable, level.paths]
  have walks : ∀ v, walk s'.mem cr3 v = walk s.mem cr3 v := fun v =>
    walk_of_widened (level.walks (path v) rfl)
  exact ⟨level.tables, level.stack ▸ mat.distinct, level.stack ▸ mat.aligned, mat.low, mat.pages,
    fun f => level.stack ▸ mat.free f, fun f => (tables f).trans (mat.table f),
    fun v f => owners v ▸ mat.owner v f, fun v f => owners v ▸ walks v ▸ mat.walks v f⟩

theorem Matches.top (mat : Matches cr3 role s) (some : s.freePages ≠ []) :
    ∃ rest k, s.freePages = rest ++ [4096 * k] ∧ role k = .free ∧ k < 2 ^ 36 := by
  obtain ⟨rest, a, split⟩ := (List.eq_nil_or_concat s.freePages).resolve_left some
  rw [List.concat_eq_append] at split
  have inside : a ∈ s.freePages := by simp [split]
  have page : a = 4096 * (a / 4096) := by
    have := mat.aligned a inside
    omega
  have free : role (a / 4096) = .free := (mat.free _).mp (page ▸ inside)
  exact ⟨rest, a / 4096, by rw [split, ← page], free, mat.low _ (by rw [free]; simp)⟩

theorem Matches.drop {rest : List Nat} (mat : Matches cr3 role s)
    (stack : s.freePages = rest ++ [4096 * k]) : rest.Nodup ∧ (∀ a ∈ rest, a % 4096 = 0) ∧
      ∀ f, 4096 * f ∈ rest ↔ f ≠ k ∧ role f = .free := by
  have distinct := mat.distinct
  rw [stack, List.nodup_append] at distinct
  refine ⟨distinct.1, fun a inside => mat.aligned a (by simp [stack, inside]), fun f => ?_⟩
  rw [← mat.free f, stack]
  constructor
  · intro inside
    refine ⟨?_, by simp [inside]⟩
    rintro rfl
    exact distinct.2.2 _ inside _ (by simp) rfl
  · rintro ⟨other, inside⟩
    rcases List.mem_append.mp inside with inside | inside
    · exact inside
    · simp only [List.mem_singleton] at inside
      omega

theorem Matches.change {x : Role} (mat : Matches cr3 role s) (tree : TableTree s'.mem cr3)
    (distinct : s'.freePages.Nodup) (aligned : ∀ a ∈ s'.freePages, a % 4096 = 0)
    (low : x ≠ .other → k < 2 ^ 36) (pages : ∀ p, x = .page p → p < 2 ^ 36)
    (free : ∀ f, 4096 * f ∈ s'.freePages ↔
      if f = k then x = .free else 4096 * f ∈ s.freePages)
    (table : ∀ f, IsTable s'.mem cr3 f ↔ if f = k then x = .table else IsTable s.mem cr3 f)
    (owner : ∀ v f, ownerAt s'.mem cr3 v = some (4096 * f) ↔
      if f = k then x = .page (pageOf v) else ownerAt s.mem cr3 v = some (4096 * f))
    (walks : ∀ v f, ownerAt s'.mem cr3 v = some (4096 * f) → walk s'.mem cr3 v = some f) :
    Matches cr3 (Function.update role k x) s' := by
  refine ⟨tree, distinct, aligned, fun f => ?_, fun f p => ?_, fun f => (free f).trans ?_,
    fun f => (table f).trans ?_, fun v f => (owner v f).trans ?_, walks⟩
  all_goals
    by_cases here : f = k
    · subst here
      simp_all
    · simp only [Function.update_of_ne here, if_neg here]
      first
        | exact mat.low f
        | exact mat.pages f p
        | exact mat.free f
        | exact mat.table f
        | exact mat.owner v f

theorem Matches.draw (mat : Matches cr3 role s) (some : s.freePages ≠ []) :
    ∃ k s', pmmAllocPage s = (4096 * k, s') ∧ s'.mem = s.mem ∧ role k = .free ∧ k < 2 ^ 36 ∧
      Matches cr3 (Function.update role k .other) s' := by
  obtain ⟨rest, k, stack, free, low⟩ := mat.top some
  obtain ⟨distinct, aligned, rest_free⟩ := mat.drop stack
  refine ⟨k, { s with freePages := rest }, by simp [pmmAllocPage, stack], rfl, free, low,
    mat.change mat.tree distinct aligned (by simp) (by simp) (fun f => ?_) (fun f => ?_)
      (fun v f => ?_) mat.walks⟩
  · rw [rest_free f, ← mat.free f]
    split <;> simp_all
  · rw [mat.table f]
    split <;> simp_all
  · rw [mat.owner v f]
    split <;> simp_all

theorem not_isTable {m : Mem} {f : Nat} : ¬ IsTable m cr3 f ↔ Unused child 3 m cr3 f :=
  ⟨fun not p short reach => not ⟨p, short, reach⟩, fun unused ⟨p, short, reach⟩ =>
    unused p short reach⟩

theorem tableAt_link_old {m : Mem} {f g : Nat} {q p : List (Fin 512)} {i : Fin 512} {e : Word}
    (tree : TableTree m cr3) (reach : tableAt child m cr3 q = some f) (hq : q.length ≤ 2)
    (absent : child (m f i) = none) (short : p.length ≤ 3)
    (old : tableAt child m cr3 p = some g) :
    tableAt child (store m f i e) cr3 p = some g := by
  rw [tableAt_store e tree reach (by omega) (by omega) ?_, old]
  rintro ⟨rest, rfl⟩
  rw [List.append_assoc, tableAt_append, reach, Option.bind_some, List.singleton_append, tableAt,
    absent] at old
  cases old

theorem Matches.link {f : Nat} {q : List (Fin 512)} {i : Fin 512} {fl : Word} {rest : List Nat}
    (mat : Matches cr3 role s) (flag : FlagWord fl) (reach : tableAt child s.mem cr3 q = some f)
    (hq : q.length ≤ 2) (absent : present (s.mem f i) = false)
    (stack : s.freePages = rest ++ [4096 * k]) (zero : ∀ j, s.mem k j = 0) :
    ∃ s' e, nextTable s f i fl = (s', k) ∧ s'.mem = store s.mem f i e ∧ s'.freePages = rest ∧
      tableAt child s'.mem cr3 (q ++ [i]) = some k ∧
      Matches cr3 (Function.update role k .table) s' ∧
      Evolves cr3 (fun _ => False) (fun _ => False) s s' role (Function.update role k .table) := by
  have free : role k = .free := (mat.free k).mp (by simp [stack])
  have low : k < 2 ^ 36 := mat.low k (by rw [free]; simp)
  have unused : Unused child 3 s.mem cr3 k := not_isTable.mp fun is => by
    rw [mat.table k, free] at is
    cases is
  have blank : ∀ j, child (s.mem k j) = none := fun j => by rw [zero j]; rfl
  have fresh : FreshTop s cr3 rest ([] ++ [k]) :=
    ⟨by simpa using stack, by simp, by simpa using ⟨low, unused⟩⟩
  obtain ⟨s', e, eq, mem, edge, apart, tree, at_k, fresh'⟩ :=
    link_top mat.tree flag reach hq absent fresh blank
  have stack' : s'.freePages = rest := by simpa using fresh'.stack
  have olds : ∀ p g, p.length ≤ 3 → tableAt child s.mem cr3 p = some g →
      tableAt child s'.mem cr3 p = some g := fun p g short old =>
    mem ▸ tableAt_link_old mat.tree reach hq (child_absent absent) short old
  have owners : ∀ v, ownerAt s'.mem cr3 v = ownerAt s.mem cr3 v := fun v =>
    mem ▸ leafOwner_observes.link mat.tree reach hq absent edge apart zero v
  have walks : ∀ v, walk s'.mem cr3 v = walk s.mem cr3 v := fun v =>
    mem ▸ walk_observes.link mat.tree reach hq absent edge apart zero v
  obtain ⟨distinct, aligned, rest_free⟩ := mat.drop stack
  refine ⟨s', e, eq, mem, stack', at_k, mat.change tree (stack' ▸ distinct) (stack' ▸ aligned)
    (fun _ => low) (by simp) (fun f => ?_) (fun f => ?_) (fun v f => ?_) (fun v f owned => ?_), ?_⟩
  · rw [stack', rest_free f, ← mat.free f]
    split <;> simp_all
  · by_cases here : f = k
    · rw [if_pos here, here]
      exact ⟨fun _ => rfl, fun _ => ⟨q ++ [i], by simp; omega, at_k⟩⟩
    · rw [if_neg here]
      refine ⟨fun is => ?_, fun is => is.imp fun p old => ⟨old.1, olds p f old.1 old.2⟩⟩
      by_contra not
      rw [mem] at is
      exact not_isTable.mpr (unused_link mat.tree reach (by omega) edge apart blank here
        (not_isTable.mp not)) is
  · rw [owners, mat.owner v f]
    split <;> simp_all
  · rw [owners] at owned
    rw [walks, mat.walks v f owned]
  · exact evolves_update (by simp [free]) (by simp [free]) ⟨by simp, by simp⟩ (by simp) olds

theorem Matches.fill {f : Nat} {q p : List (Fin 512)} {fl : Word} {rest top : List Nat}
    (mat : Matches cr3 role s) (flag : FlagWord fl) (reach : tableAt child s.mem cr3 q = some f)
    (len : q.length + p.length ≤ 3) (small : SmallWalk (trace child s.mem f p))
    (stack : s.freePages = rest ++ top.map (4096 * ·)) (enough : p.length ≤ top.length)
    (zero : ∀ k ∈ top, ∀ j, s.mem k j = 0) :
    ∃ role', Matches cr3 role' (openPath s f fl p).1 ∧
      Evolves cr3 (fun _ => False) (fun _ => False) s (openPath s f fl p).1 role role' ∧
      tableAt child (openPath s f fl p).1.mem cr3 (q ++ p) = some (openPath s f fl p).2 := by
  induction p generalizing s f q top role with
  | nil => exact ⟨role, mat, .refl _ _ _ _, by rw [List.append_nil]; exact reach⟩
  | cons i p ih =>
    simp only [List.length_cons] at len enough
    have unused : ∀ k ∈ top, k ≠ f := by
      rintro k inside rfl
      have free : role k = .free := (mat.free k).mp (by
        rw [stack]
        exact List.mem_append_right _ (List.mem_map_of_mem inside))
      have table : role k = .table := (mat.table k).mp ⟨q, by omega, reach⟩
      rw [free] at table
      cases table
    by_cases there : present (s.mem f i) = true
    · -- the table exists: its entry is widened and the next level starts from it
      have entry := small (s.mem f i) (by simp [trace]) there
      have edge : child (s.mem f i) = some (hwFrame (s.mem f i)) :=
        child_eq_some.mpr ⟨there, entry.1, rfl⟩
      have level := level_write mat.tree flag reach (by omega) edge
      have below := store_below (i := i) (s.mem f i ||| fl) mat.tree reach (by omega) (q ++ [i]) p _
        (tableAt_snoc reach edge) (by simp; omega) (.inl (by simp))
      have small' : SmallWalk (trace child (s.write f i (s.mem f i ||| fl)).mem
          (hwFrame (s.mem f i)) p) := by
        rw [Phys.write_mem, below.2]
        intro e he
        exact small e (by simp [trace, edge, he])
      obtain ⟨role', mat', evolves, at_p⟩ := ih (mat.level level)
        ((level.paths _ _).trans (tableAt_snoc reach edge)) (by simp; omega) small' stack (by omega)
        (fun k inside j => by
          rw [Phys.write_mem, store_other_frame (unused k inside)]
          exact zero k inside j)
      simp only [openPath, nextTable_present flag edge entry.2]
      rw [List.append_assoc, List.singleton_append] at at_p
      refine ⟨role', mat', ?_, at_p⟩
      exact ⟨evolves.other, evolves.node, evolves.taken, evolves.page, fun p g short old =>
        evolves.paths p g short ((level.paths _ _).trans old)⟩
    · -- the table is missing: the top frame is linked in, and it is empty
      have absent : present (s.mem f i) = false := by simpa using there
      obtain ⟨init, k, split⟩ := (List.eq_nil_or_concat top).resolve_left (by
        rintro rfl
        simp at enough)
      rw [List.concat_eq_append] at split
      subst split
      obtain ⟨s', e, eq, mem, stack', at_k, mat₁, first⟩ := mat.link flag reach (by omega) absent
        (by rw [stack, List.map_append, ← List.append_assoc]; rfl) (zero k (by simp))
      have keep : ∀ g ∈ init ++ [k], s'.mem g = s.mem g := fun g inside => by
        rw [mem, store_other_frame (unused g inside)]
      have small' : SmallWalk (trace child s'.mem k p) := by
        intro x hx hp
        cases p with
        | nil => cases hx
        | cons j p =>
          have blank : s'.mem k j = 0 := by rw [keep k (by simp), zero k (by simp)]
          have none : child (0 : Word) = none := rfl
          simp only [trace, blank, none, List.mem_singleton] at hx
          rw [hx] at hp
          cases hp
      obtain ⟨role', mat', evolves, at_p⟩ := ih mat₁ at_k (by simp; omega) small' stack'
        (by simpa using enough) (fun g inside j => by
          rw [keep g (List.mem_append_left _ inside)]
          exact zero g (List.mem_append_left _ inside) j)
      simp only [openPath, eq]
      rw [List.append_assoc, List.singleton_append] at at_p
      exact ⟨role', mat', first.trans evolves, at_p⟩

theorem Matches.lowWalk {f pt : Nat} {q p : List (Fin 512)} (mat : Matches cr3 role s)
    (reach : tableAt child s.mem cr3 q = some f) (len : q.length + p.length ≤ 3)
    (there : tableAt child s.mem f p = some pt) : LowWalk (trace child s.mem f p) := by
  induction p generalizing q f with
  | nil => simp [LowWalk, trace]
  | cons i p ih =>
    simp only [List.length_cons] at len
    obtain ⟨g, edge, there⟩ := Option.bind_eq_some_iff.mp there
    have next := tableAt_snoc reach edge
    intro e inside there'
    simp only [trace, edge, List.mem_cons] at inside
    rcases inside with rfl | inside
    · have table : role g = .table := (mat.table g).mp ⟨q ++ [i], by simp; omega, next⟩
      rw [(child_eq_some.mp edge).2.2]
      exact mat.low g (by rw [table]; simp)
    · exact ih next (by simp; omega) there e inside there'

/-- The tables of a page are there, or the frames on top of the stack are empty and no
large page is in the way. -/
def Openable (s : Phys) (cr3 v : Nat) : Prop :=
  UpperPresent s.mem cr3 v ∨
    SmallWalk (trace child s.mem cr3 ((path v).take 3)) ∧ ∃ rest top : List Nat,
      s.freePages = rest ++ top.map (4096 * ·) ∧ 3 ≤ top.length ∧ ∀ k ∈ top, ∀ j, s.mem k j = 0

theorem Matches.opened {fl : Word} (mat : Matches cr3 role s) (flag : FlagWord fl)
    (ready : Openable s cr3 v) :
    ∃ s' pt role', openPath s cr3 fl ((path v).take 3) = (s', pt) ∧ Matches cr3 role' s' ∧
      Evolves cr3 (fun _ => False) (fun _ => False) s s' role role' ∧
      tableAt child s'.mem cr3 ((path v).take 3) = some pt := by
  rcases ready with ⟨pt, upper⟩ | ⟨small, rest, top, stack, enough, zero⟩
  · obtain ⟨s', eq, level, -⟩ := openPath_present mat.tree flag (q := []) rfl (by simp [path]) upper
      (mat.lowWalk (q := []) rfl (by simp [path]) upper)
    have olds : ∀ p f, p.length ≤ 3 → tableAt child s.mem cr3 p = some f →
        tableAt child s'.mem cr3 p = some f := fun p f _ old => (level.paths _ _).trans old
    exact ⟨s', pt, role, eq, mat.level level,
      ⟨fun _ => .rfl, fun _ => id, fun _ => .inl, fun _ _ _ => .rfl, olds⟩,
      (level.paths _ _).trans upper⟩
  · obtain ⟨role', mat', evolves, at_p⟩ := mat.fill flag (q := []) rfl (by simp [path]) small stack
      (by simpa [path] using enough) zero
    exact ⟨_, _, role', rfl, mat', evolves, at_p⟩

section Leaf

variable {pt : Nat} {e : Word}

abbrev leafSlot (v : Nat) : Fin 512 := Fin.ofNat 512 (v / 2 ^ 12)

theorem leaf_isTable (mat : Matches cr3 role s)
    (upper : tableAt child s.mem cr3 ((path v).take 3) = some pt) (f : Nat) :
    IsTable (store s.mem pt (leafSlot v) e) cr3 f ↔ IsTable s.mem cr3 f := by
  have same : ∀ p : List (Fin 512), p.length ≤ 3 →
      tableAt child (store s.mem pt (leafSlot v) e) cr3 p = tableAt child s.mem cr3 p :=
    fun p short => tableAt_store_leaf e mat.tree upper (by simp [path]) short
  constructor
  · rintro ⟨p, short, reach⟩
    exact ⟨p, short, (same p short).symm.trans reach⟩
  · rintro ⟨p, short, reach⟩
    exact ⟨p, short, (same p short).trans reach⟩

theorem leaf_paths (mat : Matches cr3 role s)
    (upper : tableAt child s.mem cr3 ((path v).take 3) = some pt) :
    ∀ p f, p.length ≤ 3 → tableAt child s.mem cr3 p = some f →
      tableAt child (store s.mem pt (leafSlot v) e) cr3 p = some f :=
  fun _ _ short old => (tableAt_store_leaf e mat.tree upper (by simp [path]) short).trans old

theorem Matches.own {flags : PageFlags} (mat : Matches cr3 role s)
    (upper : tableAt child s.mem cr3 ((path v).take 3) = some pt)
    (unowned : ∀ f, role f ≠ .page (pageOf v)) (was : role k = .other) (low : k < 2 ^ 36)
    (mapped : flags.present = true) (usable : flags.usable = true) :
    Matches cr3 (Function.update role k (.page (pageOf v)))
      (s.write pt (leafSlot v) (leafEntry (4096 * k) flags)) := by
  have word : (BitVec.ofNat 64 (4096 * k)).toNat / 4096 % 2 ^ 36 = k := by
    rw [BitVec.toNat_ofNat]
    omega
  have mine : ownerOf (leafEntry (4096 * k) flags) = some (4096 * k) := by
    rw [leafEntry_owner (v := v), PageCall.owns, usable, if_pos rfl, mask_frame, word]
  have owners := fun w => ownerAt_leaf mat.tree upper (leafEntry (4096 * k) flags) w
  have walks := leaf_walk mat.tree upper (4096 * k) mapped
  rw [mine] at owners
  refine mat.change (tree_store_leaf _ mat.tree upper (by simp [path])) mat.distinct mat.aligned
    (fun _ => low) (fun p is => ?_) (fun f => ?_) (fun f => (leaf_isTable mat upper f).trans ?_)
    (fun w f => ?_) (fun w f owned => ?_)
  · cases is
    rw [pageOf]
    omega
  · rw [Phys.write_freePages, mat.free f]
    split <;> simp_all
  · rw [mat.table f]
    split <;> simp_all
  · rw [Phys.write_mem, owners w]
    by_cases same : pageOf w = pageOf v
    · rw [if_pos same, same]
      by_cases here : f = k
      · simp [here]
      · rw [if_neg here, mat.owner w f, same]
        refine ⟨fun equal => absurd ?_ here, fun is => absurd is (unowned f)⟩
        have := Option.some.inj equal
        omega
    · rw [if_neg same]
      by_cases here : f = k
      · rw [if_pos here, here, mat.owner w k, was]
        simp [Ne.symm same]
      · rw [if_neg here]
  · rw [Phys.write_mem, owners w] at owned
    by_cases same : pageOf w = pageOf v
    · rw [if_pos same] at owned
      rw [Phys.write_mem, walk_samePage same, walks.1]
      have := Option.some.inj owned
      exact congrArg some (by omega)
    · rw [if_neg same] at owned
      rw [Phys.write_mem, walks.2 w same, mat.walks w f owned]

theorem Matches.idle (mat : Matches cr3 role s)
    (upper : tableAt child s.mem cr3 ((path v).take 3) = some pt)
    (unowned : ∀ f, role f ≠ .page (pageOf v)) (idle : ownerOf e = none) :
    Matches cr3 role (s.write pt (leafSlot v) e) := by
  have owners : ∀ w, ownerAt (store s.mem pt (leafSlot v) e) cr3 w = ownerAt s.mem cr3 w := by
    intro w
    rw [ownerAt_leaf mat.tree upper e w, idle]
    split
    · rename_i same
      exact (mat.unowned.mpr (same ▸ unowned)).symm
    · rfl
  have other := (leaf_store (e := e) mat.tree upper).1
  refine ⟨tree_store_leaf _ mat.tree upper (by simp [path]), mat.distinct, mat.aligned, mat.low,
    mat.pages, mat.free, fun f => (leaf_isTable mat upper f).trans (mat.table f),
    fun w f => by rw [Phys.write_mem, owners w]; exact mat.owner w f, fun w f owned => ?_⟩
  rw [Phys.write_mem, owners w] at owned
  have apart : pageOf w ≠ pageOf v := by
    intro same
    exact unowned f (same ▸ (mat.owner w f).mp owned)
  rw [Phys.write_mem, walk, other w apart]
  exact mat.walks w f owned

theorem Matches.release (mat : Matches cr3 role s)
    (upper : tableAt child s.mem cr3 ((path v).take 3) = some pt)
    (owned : role k = .page (pageOf v)) :
    Matches cr3 (Function.update role k .free)
      ((pmmFreePage s (4096 * k)).write pt (leafSlot v) 0) := by
  have low : k < 2 ^ 36 := mat.low k (by rw [owned]; simp)
  have away : 4096 * k ∉ s.freePages := fun inside => by
    rw [mat.free k, owned] at inside
    cases inside
  have owners : ∀ w, ownerAt (store s.mem pt (leafSlot v) 0) cr3 w =
      if pageOf w = pageOf v then none else ownerAt s.mem cr3 w := fun w => by
    rw [ownerAt_leaf mat.tree upper 0 w]
    rfl
  refine mat.change (tree_store_leaf _ mat.tree upper (by simp [path])) ?_ ?_ (fun _ => low)
    (by simp) (fun f => ?_) (fun f => (leaf_isTable mat upper f).trans ?_) (fun w f => ?_)
    (fun w f mine => ?_)
  · refine List.nodup_append.mpr ⟨mat.distinct, by simp, ?_⟩
    rintro a inside b at_end rfl
    rw [List.mem_singleton] at at_end
    exact away (at_end ▸ inside)
  · intro a inside
    rcases List.mem_append.mp inside with inside | inside
    · exact mat.aligned a inside
    · rw [List.mem_singleton.mp inside]
      omega
  · rw [Phys.write_freePages, pmmFreePage, List.mem_append, List.mem_singleton]
    by_cases here : f = k
    · simp [here]
    · rw [if_neg here]
      exact or_iff_left (by omega)
  · rw [mat.table f]
    split <;> simp_all
  · rw [Phys.write_mem]
    change ownerAt (store s.mem pt (leafSlot v) 0) cr3 w = _ ↔ _
    rw [owners w]
    by_cases here : f = k
    · rw [if_pos here, here]
      split
      · simp
      · rename_i apart
        rw [mat.owner w k, owned]
        simp [Ne.symm apart]
    · rw [if_neg here]
      split
      · rename_i same
        rw [mat.owner w f, same]
        exact ⟨fun impossible => by simp at impossible, fun is => absurd (mat.one is owned) here⟩
      · rfl
  · rw [Phys.write_mem] at mine
    change ownerAt (store s.mem pt (leafSlot v) 0) cr3 w = _ at mine
    rw [owners w] at mine
    split at mine
    · cases mine
    · rename_i apart
      change walk (store s.mem pt (leafSlot v) 0) cr3 w = _
      rw [walk, (leaf_store (e := 0) mat.tree upper).1 w apart]
      exact mat.walks w f mine

end Leaf

section Calls

variable {pml4t : Nat} {flags : PageFlags}

theorem setPage_opened {paddr pt : Nat}
    (eq : openPath s (pml4t / 4096) (tableFlags flags) ((path v).take 3) = (s', pt)) :
    setPage s pml4t v paddr flags = s'.write pt (leafSlot v) (leafEntry paddr flags) := by
  simp only [setPage, getPageTableEntry_masked, eq]

theorem Matches.setFresh (mat : Matches (pml4t / 4096) role s) (some : s.freePages ≠ [])
    (ready : Openable (pmmAllocPage s).2 (pml4t / 4096) v)
    (unowned : ∀ f, role f ≠ .page (pageOf v)) (mapped : flags.present = true)
    (usable : flags.usable = true) :
    ∃ role', Matches (pml4t / 4096) role'
        (setPage (pmmAllocPage s).2 pml4t v (pmmAllocPage s).1 flags) ∧
      Evolves (pml4t / 4096) (· = pageOf v) (fun _ => False) s
        (setPage (pmmAllocPage s).2 pml4t v (pmmAllocPage s).1 flags) role role' ∧
      (∃ f, role' f = .page (pageOf v)) ∧
      UpperPresent (setPage (pmmAllocPage s).2 pml4t v (pmmAllocPage s).1 flags).mem
        (pml4t / 4096) v := by
  obtain ⟨k, s₁, drawn, mem, free, low, mat₁⟩ := mat.draw some
  rw [drawn] at ready ⊢
  obtain ⟨s₂, pt, role₂, eq, mat₂, evolves, upper⟩ :=
    mat₁.opened (tableFlags_flagWord flags) ready
  have was : role₂ k = .other := (evolves.other k).mpr (Function.update_self ..)
  have unowned₂ : ∀ f, role₂ f ≠ .page (pageOf v) := by
    intro f is
    have old := (evolves.page f _ (by simp)).mp is
    by_cases here : f = k
    · rw [here, Function.update_self] at old
      cases old
    · rw [Function.update_of_ne here] at old
      exact unowned f old
  have mat₃ := mat₂.own upper unowned₂ was low mapped usable
  rw [setPage_opened eq]
  refine ⟨_, mat₃, ?_, ⟨k, Function.update_self ..⟩, pt, leaf_paths mat₂ upper _ _
    (by simp [path]) upper⟩
  refine ⟨fun f => ?_, fun f is => ?_, fun f is => .inl ?_, fun f p out => ?_,
    fun p f short old => ?_⟩
  · by_cases here : f = k
    · simp [here, free]
    · rw [Function.update_of_ne here, evolves.other f, Function.update_of_ne here]
  · have here : f ≠ k := by
      rintro rfl
      rw [free] at is
      cases is
    rw [Function.update_of_ne here]
    exact evolves.node f (by rw [Function.update_of_ne here]; exact is)
  · by_cases here : f = k
    · rw [here, Function.update_self] at is
      cases is
    · rw [Function.update_of_ne here] at is
      have old := (evolves.taken f is).resolve_right id
      rwa [Function.update_of_ne here] at old
  · by_cases here : f = k
    · simp [here, free, Ne.symm out]
    · rw [Function.update_of_ne here, evolves.page f p (by simp), Function.update_of_ne here]
  · exact leaf_paths mat₂ upper p f short (evolves.paths p f short (mem ▸ old))

theorem Matches.setForeign (paddr : Nat) (mat : Matches (pml4t / 4096) role s)
    (ready : Openable s (pml4t / 4096) v) (unowned : ∀ f, role f ≠ .page (pageOf v))
    (foreign : flags.usable = false) :
    ∃ role', Matches (pml4t / 4096) role' (setPage s pml4t v paddr flags) ∧
      Evolves (pml4t / 4096) (fun _ => False) (fun _ => False) s (setPage s pml4t v paddr flags)
        role role' ∧
      UpperPresent (setPage s pml4t v paddr flags).mem (pml4t / 4096) v := by
  obtain ⟨s₁, pt, role₁, eq, mat₁, evolves, upper⟩ := mat.opened (tableFlags_flagWord flags) ready
  have unowned₁ : ∀ f, role₁ f ≠ .page (pageOf v) := fun f is =>
    unowned f ((evolves.page f _ (by simp)).mp is)
  have idle : ownerOf (leafEntry paddr flags) = none := by
    rw [leafEntry_owner (v := v), PageCall.owns, foreign]
    rfl
  rw [setPage_opened eq]
  refine ⟨role₁, mat₁.idle upper unowned₁ idle, ?_, pt, leaf_paths mat₁ upper _ _
    (by simp [path]) upper⟩
  exact ⟨evolves.other, evolves.node, evolves.taken, evolves.page, fun p f short old =>
    leaf_paths mat₁ upper p f short (evolves.paths p f short old)⟩

theorem Matches.freed (mat : Matches (pml4t / 4096) role s)
    (upper : UpperPresent s.mem (pml4t / 4096) v) :
    ∃ role', Matches (pml4t / 4096) role' (freePage s pml4t v) ∧
      Evolves (pml4t / 4096) (· = pageOf v) (fun _ => False) s (freePage s pml4t v) role role' ∧
      ∀ f, role' f ≠ .page (pageOf v) := by
  have flag : FlagWord 0 := ⟨rfl, rfl⟩
  obtain ⟨s₁, pt, role₁, eq, mat₁, evolves, there⟩ := mat.opened flag (.inl upper)
  have entry := ownerAt_entry there
  have olds : ∀ p f, p.length ≤ 3 → tableAt child s.mem (pml4t / 4096) p = some f →
      tableAt child (store s₁.mem pt (leafSlot v) 0) (pml4t / 4096) p = some f :=
    fun p f short old => leaf_paths mat₁ there p f short (evolves.paths p f short old)
  by_cases usable : s₁.mem pt (leafSlot v) &&& pageCustomUsable = 0
  · have after : freePage s pml4t v = s₁.write pt (leafSlot v) 0 := by
      simp only [freePage, getPageTableEntry_masked, eq, usable]
      rfl
    have unowned := mat₁.unowned.mp (entry.trans (by rw [ownerOf, if_neg (by simpa using usable)]))
    rw [after]
    refine ⟨role₁, mat₁.idle there unowned rfl, ?_, unowned⟩
    exact ⟨evolves.other, evolves.node, evolves.taken, fun f p _ => evolves.page f p (by simp),
      olds⟩
  · have owned := entry.trans (if_pos usable)
    rw [mask_frame] at owned
    have page := (mat₁.owner v _).mp owned
    have after : freePage s pml4t v = (pmmFreePage s₁ (4096 * ((s₁.mem pt (leafSlot v)).toNat /
        4096 % 2 ^ 36))).write pt (leafSlot v) 0 := by
      rw [← mask_frame]
      simp only [freePage, getPageTableEntry_masked, eq]
      rw [if_pos usable]
    rw [after]
    refine ⟨_, mat₁.release there page, ?_, fun f is => ?_⟩
    · refine (evolves.mono (by simp) (by simp)).trans ?_
      exact evolves_update (page ▸ ⟨by simp, by simp⟩)
        (fun p is => (Role.page.inj (page.symm.trans is)).symm) ⟨by simp, by simp⟩ (by simp)
        (leaf_paths mat₁ there)
    · by_cases here : f = (s₁.mem pt (leafSlot v)).toNat / 4096 % 2 ^ 36
      · rw [here, Function.update_self] at is
        cases is
      · rw [Function.update_of_ne here] at is
        exact here (mat₁.one is page)

theorem Matches.quiet (mat : Matches cr3 role s) (quiet : Quiet cr3 s s') :
    ∃ role', Matches cr3 role' s' ∧
      Evolves cr3 (fun _ => False) (fun f => 4096 * f ∈ s.freePages ∧ 4096 * f ∉ s'.freePages)
        s s' role role' ∧
      ∀ f, 4096 * f ∈ s.freePages → 4096 * f ∉ s'.freePages → role' f = .node := by
  have same : ∀ p : List (Fin 512), p.length ≤ 4 →
      tableAt child s'.mem cr3 p = tableAt child s.mem cr3 p := fun p short =>
    tableAt_agree quiet.tables short
  have traces : ∀ v, trace child s'.mem cr3 (path v) = trace child s.mem cr3 (path v) := fun v =>
    trace_agree quiet.tables (by simp [path])
  have tables : ∀ f, IsTable s'.mem cr3 f ↔ IsTable s.mem cr3 f := fun f =>
    exists_congr fun p => and_congr_right fun short => by rw [same p (by omega)]
  have owners : ∀ v, ownerAt s'.mem cr3 v = ownerAt s.mem cr3 v := fun v =>
    congrArg leafOwner (traces v)
  have walks : ∀ v, walk s'.mem cr3 v = walk s.mem cr3 v := fun v =>
    congrArg (translate v) (traces v)
  -- a frame that is no longer on the stack is the node allocator's
  let role' : Nat → Role := fun f =>
    if role f = .free ∧ 4096 * f ∉ s'.freePages then .node else role f
  have keeps : ∀ f x, x ≠ .free → x ≠ .node → (role' f = x ↔ role f = x) := by
    intro f x free node
    simp only [role']
    split
    · rename_i taken
      exact ⟨fun is => absurd is.symm node, fun is => absurd (is.symm.trans taken.1) free⟩
    · rfl
  have free : ∀ f, 4096 * f ∈ s'.freePages ↔ role' f = .free := by
    intro f
    have sub : 4096 * f ∈ s'.freePages → role f = .free := fun inside =>
      (mat.free f).mp (quiet.stack.subset inside)
    simp only [role']
    split
    · rename_i taken
      exact ⟨fun inside => absurd inside taken.2, fun is => by cases is⟩
    · rename_i left
      exact ⟨sub, fun is => by_contra fun out => left ⟨is, out⟩⟩
  have low : ∀ f, role' f ≠ .other → f < 2 ^ 36 := fun f known =>
    mat.low f fun is => known ((keeps f _ (by simp) (by simp)).mpr is)
  refine ⟨role', ⟨tree_agree quiet.tables mat.tree, mat.distinct.sublist quiet.stack.sublist,
    fun a inside => mat.aligned a (quiet.stack.subset inside), low,
    fun f p is => mat.pages f p ((keeps f _ (by simp) (by simp)).mp is), free,
    fun f => (tables f).trans ((mat.table f).trans (keeps f _ (by simp) (by simp)).symm),
    fun v f => by
      rw [owners, mat.owner v f]
      exact (keeps f _ (by simp) (by simp)).symm,
    fun v f => by
      rw [owners, walks]
      exact mat.walks v f⟩,
    ⟨fun f => keeps f _ (by simp) (by simp), fun f is => ?_, fun f is => ?_,
      fun f p _ => keeps f _ (by simp) (by simp),
      fun p f short old => (same p (by omega)).trans old⟩, fun f inside out => ?_⟩
  · simp only [role', is]
    simp
  · by_cases now : role f = .free ∧ 4096 * f ∉ s'.freePages
    · exact .inr ⟨(mat.free f).mpr now.1, now.2⟩
    · simp only [role', if_neg now] at is
      exact .inl is
  · exact if_pos ⟨(mat.free f).mp inside, out⟩

end Calls

end Ledger

end Gapxos
