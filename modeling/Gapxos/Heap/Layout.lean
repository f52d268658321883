import Gapxos.Lib.Cells
import Gapxos.Lib.Extents
import Gapxos.Heap.Malloc

/-! The bytes of the heap as records of three words each. A record owns a piece of memory
that begins with its words, and no two pieces overlap; so a store into one word is a store
into one field. -/
namespace Gapxos
open Bytes Linked Extents Radix

abbrev Fields := Nat → Fin 3 → Nat

/- Named, so that a literal of `Fin 3` is one term in all modules. -/
instance fields_neZero : NeZero 3 := ⟨by decide⟩

def Heap.fields (h : Heap) : Fields := fun x k => read h.mem (x + 8 * k) 8

/- The records `xs` have the fields `F`, and `ext` is what each of them owns. A record of
one word has only its first field. -/
structure Rep (h : Heap) (F : Fields) (ext : Nat → Nat) (xs : List Nat) : Prop where
  apart : Apart ext xs
  word : ∀ x ∈ xs, 8 ≤ ext x
  within : ∀ x ∈ xs, ∃ r ∈ h.held, r.1 ≤ x ∧ x + ext x ≤ r.1 + r.2
  ends : ∀ r ∈ h.held, r.1 + r.2 ≤ 2 ^ 64
  cells : ∀ x ∈ xs, ∀ k : Fin 3, 8 * k.val + 8 ≤ ext x → h.fields x k = F x k

def cellAddr (c : Nat × Fin 3) : Nat := c.1 + 8 * c.2

/-- What is mapped stays, and no byte changes but in the headers of the records. -/
structure Heap.Kept (h : Heap) (xs : List Nat) (h' : Heap) : Prop where
  held : h'.held = h.held
  bytes : ∀ a, (∀ x ∈ xs, a < x ∨ x + headerSize ≤ a) → h'.mem a = h.mem a

theorem Heap.Kept.trans {h h₁ h₂ : Heap} {xs : List Nat} (first : h.Kept xs h₁)
    (second : h₁.Kept xs h₂) : h.Kept xs h₂ :=
  ⟨second.held.trans first.held, fun a out => (second.bytes a out).trans (first.bytes a out)⟩

theorem Heap.Kept.mono {h h' : Heap} {xs ys : List Nat} (kept : h.Kept xs h')
    (sub : ∀ x ∈ xs, x ∈ ys) : h.Kept ys h' :=
  ⟨kept.held, fun a out => kept.bytes a fun x inside => out x (sub x inside)⟩

namespace Rep

variable {h : Heap} {F : Fields} {ext : Nat → Nat} {xs ys : List Nat} {x : Nat} {k : Fin 3}

theorem nodup (rep : Rep h F ext xs) : xs.Nodup :=
  rep.apart.nodup fun x inside => Nat.lt_of_lt_of_le (by decide) (rep.word x inside)

theorem perm (rep : Rep h F ext xs) (p : xs.Perm ys) : Rep h F ext ys :=
  ⟨rep.apart.perm p, fun x inside => rep.word x (p.mem_iff.mpr inside),
    fun x inside => rep.within x (p.mem_iff.mpr inside), rep.ends,
    fun x inside => rep.cells x (p.mem_iff.mpr inside)⟩

theorem bound (rep : Rep h F ext xs) (inside : x ∈ xs) : x + ext x ≤ 2 ^ 64 := by
  obtain ⟨r, held, _, high⟩ := rep.within x inside
  exact high.trans (rep.ends r held)

theorem length_lt (rep : Rep h F ext xs) (once : ys.Nodup) (sub : ∀ y ∈ ys, y ∈ xs) :
    ys.length < walkBound := by
  have inside : ys ⊆ List.range (2 ^ 64) := by
    intro y there
    have word := rep.word y (sub y there)
    have := rep.bound (sub y there)
    exact List.mem_range.mpr (by omega)
  have le := List.Nodup.length_le_of_subset once inside
  rw [List.length_range] at le
  exact Nat.lt_succ_of_le le

theorem mapped (rep : Rep h F ext xs) (inside : x ∈ xs) (room : 8 * k.val + 8 ≤ ext x) :
    h.mapped (x + 8 * k) = true := by
  obtain ⟨r, held, low, high⟩ := rep.within x inside
  exact List.any_eq_true.mpr ⟨r, held, by simp only [decide_eq_true_eq]; omega⟩

theorem load (rep : Rep h F ext xs) (inside : x ∈ xs) (room : 8 * k.val + 8 ≤ ext x) :
    h.load (x + 8 * k) = some (F x k) := by
  rw [Heap.load, if_pos (rep.mapped inside room), ← rep.cells x inside k room]
  rfl

theorem field_lt (rep : Rep h F ext xs) (inside : x ∈ xs) (room : 8 * k.val + 8 ≤ ext x) :
    F x k < 2 ^ 64 := by
  rw [← rep.cells x inside k room]
  exact read_lt ..

theorem words_off (rep : Rep h F ext xs) {y : Nat} {j : Fin 3} (inside : x ∈ xs)
    (room : 8 * k.val + 8 ≤ ext x) (inside' : y ∈ xs) (room' : 8 * j.val + 8 ≤ ext y)
    (ne : ¬ (y = x ∧ j = k)) : x + 8 * k + 8 ≤ y + 8 * j ∨ y + 8 * j + 8 ≤ x + 8 * k := by
  by_cases same : y = x
  · subst same
    have : j.val ≠ k.val := fun eq => ne ⟨rfl, Fin.ext eq⟩
    omega
  · rcases rep.apart.off inside inside' (Ne.symm same) with below | above
    · exact .inl (by omega)
    · exact .inr (by omega)

theorem store (rep : Rep h F ext xs) (inside : x ∈ xs) (room : 8 * k.val + 8 ≤ ext x) {w : Nat}
    (small : w < 2 ^ 64) : ∃ h', h.store (x + 8 * k) w = some h' ∧ h.Kept xs h' ∧
      Rep h' (Radix.store F x k w) ext xs := by
  refine ⟨{ h with mem := write h.mem (x + 8 * k) 8 w },
    by rw [Heap.store, if_pos (rep.mapped inside room)], ⟨rfl, fun a out => ?_⟩, rep.apart,
    rep.word, rep.within, rep.ends, fun y there j room' => ?_⟩
  · have outside := out x inside
    have := k.isLt
    simp only [headerSize] at outside
    exact if_neg (by omega)
  · by_cases hit : y = x ∧ j = k
    · obtain ⟨rfl, rfl⟩ := hit
      rw [store_same]
      exact (read_write_same h.mem _ 8 w).trans (Nat.mod_eq_of_lt small)
    · rw [store_other hit, ← rep.cells y there j room']
      exact read_write_other (rep.words_off inside room there room' hit)

/- The three words of a header. -/
theorem load_first (rep : Rep h F ext xs) (inside : x ∈ xs) : h.load x = some (F x 0) :=
  rep.load (k := 0) inside (rep.word x inside)

theorem load_second (rep : Rep h F ext xs) (inside : x ∈ xs) (header : headerSize ≤ ext x) :
    h.load (x + 8) = some (F x 1) :=
  rep.load (k := 1) inside (Nat.le_trans (by decide) header)

theorem load_third (rep : Rep h F ext xs) (inside : x ∈ xs) (header : headerSize ≤ ext x) :
    h.load (x + 16) = some (F x 2) :=
  rep.load (k := 2) inside header

variable {w : Nat}

theorem store_first (rep : Rep h F ext xs) (inside : x ∈ xs) (small : w < 2 ^ 64) :
    ∃ h', h.store x w = some h' ∧ h.Kept xs h' ∧ Rep h' (Radix.store F x 0 w) ext xs :=
  rep.store (k := 0) inside (rep.word x inside) small

theorem store_second (rep : Rep h F ext xs) (inside : x ∈ xs) (header : headerSize ≤ ext x)
    (small : w < 2 ^ 64) :
    ∃ h', h.store (x + 8) w = some h' ∧ h.Kept xs h' ∧ Rep h' (Radix.store F x 1 w) ext xs :=
  rep.store (k := 1) inside (Nat.le_trans (by decide) header) small

theorem store_third (rep : Rep h F ext xs) (inside : x ∈ xs) (header : headerSize ≤ ext x)
    (small : w < 2 ^ 64) :
    ∃ h', h.store (x + 16) w = some h' ∧ h.Kept xs h' ∧ Rep h' (Radix.store F x 2 w) ext xs :=
  rep.store (k := 2) inside header small

theorem cellOf (rep : Rep h F ext xs) {A : List Nat} {t n : Nat} (hung : Hung 0 0 F x k A t)
    (absent : t ∉ A) (inside : x ∈ xs) (room : 8 * k.val + 8 ≤ ext x) (sub : ∀ y ∈ A, y ∈ xs)
    (enough : A.length < n) : h.cellOf t (x + 8 * k) n = some (cellAddr (lastCell 0 x k A)) := by
  induction A generalizing x k n with
  | nil =>
    obtain ⟨n, rfl⟩ := Nat.exists_eq_succ_of_ne_zero (Nat.ne_of_gt enough)
    have here : F x k = t := hung
    simp [Heap.cellOf, rep.load inside room, here, lastCell, cellAddr]
  | cons y A ih =>
    obtain ⟨n, rfl⟩ := Nat.exists_eq_succ_of_ne_zero (Nat.ne_of_gt (Nat.zero_lt_of_lt enough))
    obtain ⟨here, _, rest⟩ := hung
    have more : y ≠ t := fun same => absent (by simp [same])
    have there := sub y List.mem_cons_self
    have walk := ih (k := 0) (n := n) rest (fun inside => absent (List.mem_cons_of_mem y inside))
      there (rep.word y there) (fun a inside => sub a (List.mem_cons_of_mem y inside))
      (by simpa using enough)
    simpa [Heap.cellOf, rep.load inside room, here, more, lastCell] using walk

theorem firstFit (rep : Rep h F ext xs) (size : Nat) {fs : List Nat} {p n : Nat}
    (list : Seg 0 (fun y => F y 0) p fs 0) (sub : ∀ b ∈ fs, b ∈ xs ∧ headerSize ≤ ext b)
    (enough : fs.length < n) :
    h.firstFit size p n = some (fs.find? fun b => size < F b 2) := by
  induction fs generalizing p n with
  | nil =>
    obtain ⟨n, rfl⟩ := Nat.exists_eq_succ_of_ne_zero (Nat.ne_of_gt enough)
    obtain rfl : p = 0 := list
    rfl
  | cons b fs ih =>
    obtain ⟨n, rfl⟩ := Nat.exists_eq_succ_of_ne_zero (Nat.ne_of_gt (Nat.zero_lt_of_lt enough))
    obtain ⟨rfl, ne, rest⟩ := list
    obtain ⟨inside, header⟩ := sub p List.mem_cons_self
    rw [Heap.firstFit, if_neg ne, rep.load_third inside header, Option.bind_eq_bind,
      Option.bind_some, List.find?_cons]
    split
    · rename_i fits
      simp [fits]
    · rename_i small
      simp only [small, decide_false, rep.load_first inside, Option.bind_some]
      exact ih rest (fun a inside => sub a (List.mem_cons_of_mem p inside)) (by simpa using enough)

end Rep

structure PageView where
  base : Nat
  free : List Nat
  allocated : List Nat

def PageView.starts (v : PageView) : List Nat := v.base :: (v.free ++ v.allocated)

/-- All records: the word heap_root, the pages and their blocks. -/
def starts (root : Nat) (views : List PageView) : List Nat :=
  root :: views.flatMap PageView.starts

/- What a free block owns covers the bytes it counts. A block on the allocated list need
not be in use. -/
structure PageInv (F : Fields) (ext : Nat → Nat) (v : PageView) : Prop where
  free : Hung 0 0 F v.base 1 v.free 0
  allocated : Hung 0 0 F v.base 2 v.allocated 0
  owner : ∀ b ∈ v.free ++ v.allocated, F b 1 = v.base
  header : ∀ x ∈ v.starts, headerSize ≤ ext x
  room : ∀ b ∈ v.free, headerSize + F b 2 ≤ ext b

/-- An allocation, pointer and size, lies in a block of the page. -/
def LiveIn (F : Fields) (ext : Nat → Nat) (v : PageView) (l : Nat × Nat) : Prop :=
  ∃ b ∈ v.allocated, l.1 = b + headerSize ∧ headerSize + F b 2 ≤ ext b ∧ headerSize + l.2 ≤ ext b

def Homed (held : List (Nat × Nat)) (ext : Nat → Nat) (v : PageView) : Prop :=
  ∃ bytes, (v.base, bytes) ∈ held ∧ ∀ x ∈ v.starts, v.base ≤ x ∧ x + ext x ≤ v.base + bytes

/- Blocks that own what they count, and together all of the first page behind its header. -/
structure Exact (F : Fields) (ext : Nat → Nat) (v : PageView) : Prop where
  page : ext v.base = headerSize
  own : ∀ b ∈ v.free ++ v.allocated, ext b = headerSize + F b 2
  covers : ∀ a, (∃ b ∈ v.free ++ v.allocated, b ≤ a ∧ a < b + ext b) ↔
    v.base + headerSize ≤ a ∧ a < v.base + 4096

structure HeapInv (root : Nat) (h : Heap) (F : Fields) (ext : Nat → Nat) (live : List (Nat × Nat))
    (views : List PageView) : Prop where
  rep : Rep h F ext (starts root views)
  chain : Hung 0 0 F root 0 (views.map PageView.base) 0
  pages : ∀ v ∈ views, PageInv F ext v
  homes : ∀ v ∈ views, Homed h.held ext v
  placed : ∀ l ∈ live, ∃ v ∈ views, LiveIn F ext v l
  once : (live.map Prod.fst).Nodup

theorem mem_around {α : Type} {xs ys : List α} {x y : α} (other : y ∈ xs ++ ys) :
    y ∈ xs ++ x :: ys :=
  List.mem_append.mpr ((List.mem_append.mp other).imp id (List.mem_cons_of_mem x))

theorem forall_around {α : Type} {P : α → Prop} {xs ys : List α} {x : α}
    (rest : ∀ y ∈ xs ++ ys, P y) (here : P x) : ∀ y ∈ xs ++ x :: ys, P y := by
  intro y inside
  rcases List.mem_append.mp inside with left | right
  · exact rest y (List.mem_append_left ys left)
  · rcases List.mem_cons.mp right with rfl | right
    · exact here
    · exact rest y (List.mem_append_right xs right)

section Views

variable {root : Nat} {h h' : Heap} {F F' : Fields} {ext ext' : Nat → Nat}
  {live live' : List (Nat × Nat)} {views V W : List PageView} {v v' : PageView}

theorem mem_starts {x : Nat} (inside : v ∈ views) (there : x ∈ v.starts) : x ∈ starts root views :=
  List.mem_cons_of_mem root (List.mem_flatMap.mpr ⟨v, inside, there⟩)

theorem base_start {x : Nat} (inside : x ∈ root :: views.map PageView.base) :
    x ∈ starts root views := by
  rcases List.mem_cons.mp inside with rfl | inside
  · exact List.mem_cons_self
  · obtain ⟨v, there, rfl⟩ := List.mem_map.mp inside
    exact mem_starts there List.mem_cons_self

theorem starts_perm (root : Nat) (V W : List PageView) (v : PageView) :
    (starts root (V ++ v :: W)).Perm (v.starts ++ starts root (V ++ W)) := by
  simp only [starts, List.flatMap_append, List.flatMap_cons]
  refine .trans ?_ List.perm_middle.symm
  refine .cons root ?_
  rw [← List.append_assoc, ← List.append_assoc]
  exact List.perm_append_comm.append_right _

section Distinct

variable (once : (starts root views).Nodup)
include once

theorem view_nodup (inside : v ∈ views) : v.starts.Nodup :=
  (List.nodup_flatMap.mp (List.nodup_cons.mp once).2).1 v inside

theorem bases_nodup : (root :: views.map PageView.base).Nodup := by
  have sub : (views.map PageView.base).Sublist (views.flatMap PageView.starts) := by
    clear once
    induction views with
    | nil => exact .slnil
    | cons v views ih =>
      rw [List.map_cons, List.flatMap_cons]
      exact (ih.trans (List.sublist_append_right _ _)).cons_cons v.base
  exact (sub.cons_cons root).nodup once

theorem block_ne_base {b x : Nat} (inside : v ∈ views) (block : b ∈ v.free ++ v.allocated)
    (base : x ∈ root :: views.map PageView.base) : b ≠ x := by
  obtain ⟨V, W, rfl⟩ := List.append_of_mem inside
  obtain ⟨own, _, apart⟩ := List.nodup_append.mp ((starts_perm root V W v).nodup_iff.mp once)
  have there : b ∈ v.starts := List.mem_cons_of_mem _ block
  by_cases same : x = v.base
  · rw [same]
    exact fun eq => (List.nodup_cons.mp own).1 (eq ▸ block)
  · refine apart b there x ?_
    rcases List.mem_cons.mp base with rfl | base
    · exact List.mem_cons_self
    · obtain ⟨u, inside', rfl⟩ := List.mem_map.mp base
      refine mem_starts (v := u) ?_ List.mem_cons_self
      simp only [List.mem_append, List.mem_cons] at inside' ⊢
      rcases inside' with left | rfl | right
      · exact .inl left
      · exact absurd rfl same
      · exact .inr right

omit once in
theorem rest_out {V W : List PageView} (once : (starts root (V ++ v :: W)).Nodup) {x : Nat}
    (inside : x ∈ starts root (V ++ W)) : x ∉ v.starts :=
  fun there => (List.nodup_append.mp ((starts_perm root V W v).nodup_iff.mp once)).2.2 x there x
    inside rfl

end Distinct

/- The word that leads from one page to the next is no part of the page. -/
theorem PageInv.congr (page : PageInv F ext v) (base : ∀ k ≠ 0, F' v.base k = F v.base k)
    (block : ∀ b ∈ v.free ++ v.allocated, F' b = F b) (size : ∀ x ∈ v.starts, ext' x = ext x) :
    PageInv F' ext' v := by
  refine ⟨(hung_congr (base 1 (by decide)) fun b inside => ?_).mpr page.free,
    (hung_congr (base 2 (by decide)) fun b inside => ?_).mpr page.allocated, fun b inside => ?_,
    fun x inside => ?_, fun b inside => ?_⟩
  · rw [block b (List.mem_append_left _ inside)]
  · rw [block b (List.mem_append_right _ inside)]
  · rw [block b inside]
    exact page.owner b inside
  · rw [size x inside]
    exact page.header x inside
  · have there := List.mem_append_left v.allocated inside
    rw [block b there, size b (List.mem_cons_of_mem _ there)]
    exact page.room b inside

theorem Homed.congr {held held' : List (Nat × Nat)} (home : Homed held ext v)
    (more : ∀ r ∈ held, r ∈ held') (size : ∀ x ∈ v.starts, ext' x = ext x) :
    Homed held' ext' v := by
  obtain ⟨bytes, range, place⟩ := home
  refine ⟨bytes, more _ range, fun x there => ?_⟩
  rw [size x there]
  exact place x there

theorem Exact.congr (exact : Exact F ext v) (base : v'.base = v.base)
    (blocks : ∀ b, b ∈ v'.free ++ v'.allocated ↔ b ∈ v.free ++ v.allocated)
    (lengths : ∀ b ∈ v.free ++ v.allocated, F' b 2 = F b 2)
    (size : ∀ x ∈ v.starts, ext' x = ext x) : Exact F' ext' v' := by
  have same : ∀ b ∈ v.free ++ v.allocated, ext' b = ext b := fun b inside =>
    size b (List.mem_cons_of_mem _ inside)
  refine ⟨?_, fun b inside => ?_, fun a => ?_⟩
  · rw [base, size v.base List.mem_cons_self]
    exact exact.page
  · have old := (blocks b).mp inside
    rw [same b old, lengths b old]
    exact exact.own b old
  · rw [base, ← exact.covers a]
    constructor
    · rintro ⟨b, inside, range⟩
      have old := (blocks b).mp inside
      rw [same b old] at range
      exact ⟨b, old, range⟩
    · rintro ⟨b, inside, range⟩
      rw [← same b inside] at range
      exact ⟨b, (blocks b).mpr inside, range⟩

theorem exact_replace (exact : ∀ u ∈ V ++ v :: W, Exact F ext u)
    (same : ∀ x ∈ starts root (V ++ W), F' x 2 = F x 2 ∧ ext' x = ext x)
    (page : Exact F' ext' v') : ∀ u ∈ V ++ v' :: W, Exact F' ext' u := by
  refine forall_around (fun u other => ?_) page
  refine (exact u (mem_around other)).congr rfl (fun _ => Iff.rfl) (fun b block => ?_)
    fun x there => ?_
  · exact (same b (mem_starts other (List.mem_cons_of_mem _ block))).1
  · exact (same x (mem_starts other there)).2

theorem LiveIn.congr {l : Nat × Nat} (there : LiveIn F ext v l)
    (same : ∀ b ∈ v.allocated, F' b 2 = F b 2 ∧ ext' b = ext b) : LiveIn F' ext' v l := by
  obtain ⟨b, inside, ptr, own, size⟩ := there
  refine ⟨b, inside, ptr, ?_, ?_⟩
  · rw [(same b inside).1, (same b inside).2]
    exact own
  · rw [(same b inside).2]
    exact size

theorem HeapInv.placed_cases (inv : HeapInv root h F ext live (V ++ v :: W)) {l : Nat × Nat}
    (inside : l ∈ live) : LiveIn F ext v l ∨ ∃ u ∈ V ++ W, LiveIn F ext u l := by
  obtain ⟨u, there, live⟩ := inv.placed l inside
  simp only [List.mem_append, List.mem_cons] at there ⊢
  rcases there with left | rfl | right
  · exact .inr ⟨u, .inl left, live⟩
  · exact .inl live
  · exact .inr ⟨u, .inr right, live⟩

theorem HeapInv.free_not_live (inv : HeapInv root h F ext live views) (inside : v ∈ views) {b : Nat}
    (free : b ∈ v.free) : b + headerSize ∉ live.map Prod.fst := by
  intro used
  obtain ⟨l, there, ptr⟩ := List.mem_map.mp used
  obtain ⟨V, W, rfl⟩ := List.append_of_mem inside
  rcases inv.placed_cases there with ⟨x, allocated, eq, _⟩ | ⟨u, other, x, allocated, eq, _⟩
  · obtain rfl : x = b := Nat.add_right_cancel (eq.symm.trans ptr)
    have blocks := (List.nodup_cons.mp (view_nodup inv.rep.nodup inside)).2
    exact (List.nodup_append.mp blocks).2.2 x free x allocated rfl
  · obtain rfl : x = b := Nat.add_right_cancel (eq.symm.trans ptr)
    refine rest_out inv.rep.nodup (mem_starts other ?_) (List.mem_cons_of_mem _
      (List.mem_append_left _ free))
    exact List.mem_cons_of_mem _ (List.mem_append_right _ allocated)

theorem HeapInv.replace (inv : HeapInv root h F ext live (V ++ v :: W)) (base : v'.base = v.base)
    (held : h'.held = h.held) (home : Homed h.held ext' v')
    (rep : Rep h' F' ext' (v'.starts ++ starts root (V ++ W)))
    (same : ∀ x ∈ starts root (V ++ W), F' x = F x ∧ ext' x = ext x)
    (next : F' v.base 0 = F v.base 0) (page : PageInv F' ext' v')
    (placed : ∀ l ∈ live', LiveIn F' ext' v' l ∨ ∃ u ∈ V ++ W, LiveIn F ext u l)
    (once : (live'.map Prod.fst).Nodup) : HeapInv root h' F' ext' live' (V ++ v' :: W) := by
  have other : ∀ u ∈ V ++ W, ∀ x ∈ u.starts, F' x = F x ∧ ext' x = ext x :=
    fun u inside x there => same x (mem_starts inside there)
  have keep : ∀ u ∈ V ++ W, PageInv F' ext' u := fun u inside =>
    (inv.pages u (mem_around inside)).congr
      (fun k _ => by rw [(other u inside _ List.mem_cons_self).1])
      (fun b there => (other u inside b (List.mem_cons_of_mem _ there)).1)
      fun x there => (other u inside x there).2
  have stay : ∀ u ∈ V ++ W, Homed h.held ext' u := fun u inside =>
    (inv.homes u (mem_around inside)).congr (fun r range => range)
      fun x there => (other u inside x there).2
  refine ⟨rep.perm (starts_perm root V W v').symm, ?_, forall_around keep page,
    held ▸ forall_around stay home, fun l inside => ?_, once⟩
  · have chain : (V ++ v' :: W).map PageView.base = (V ++ v :: W).map PageView.base := by
      simp [base]
    rw [chain]
    refine (hung_congr ?_ fun x inside => ?_).mpr inv.chain
    · rw [(same root List.mem_cons_self).1]
    · obtain ⟨u, there, rfl⟩ := List.mem_map.mp inside
      refine forall_around (P := fun u => F' u.base 0 = F u.base 0) (fun w elsewhere => ?_) next u
        there
      rw [(other w elsewhere _ List.mem_cons_self).1]
  · rcases placed l inside with here | ⟨u, elsewhere, there⟩
    · exact ⟨v', by simp, here⟩
    · refine ⟨u, mem_around elsewhere, there.congr fun b inside => ?_⟩
      obtain ⟨field, size⟩ := other u elsewhere b (by simp [PageView.starts, inside])
      exact ⟨by rw [field], size⟩

theorem HeapInv.fields_eq (inv : HeapInv root h F ext live views) (inside : v ∈ views) {x : Nat}
    (there : x ∈ v.starts) : h.fields x = F x := by
  funext k
  refine inv.rep.cells x (mem_starts inside there) k ?_
  have header := (inv.pages v inside).header x there
  have := k.isLt
  simp only [headerSize] at header
  omega

theorem HeapInv.fields (inv : HeapInv root h F ext live views) :
    HeapInv root h h.fields ext live views := by
  have full : ∀ v ∈ views, ∀ x ∈ v.starts, h.fields x = F x := fun v inside x there =>
    inv.fields_eq inside there
  refine ⟨⟨inv.rep.apart, inv.rep.word, inv.rep.within, inv.rep.ends, fun _ _ _ _ => rfl⟩,
    (hung_congr ?_ fun x inside => ?_).mpr inv.chain, fun v inside => ?_, inv.homes,
    fun l inside => ?_, inv.once⟩
  · exact inv.rep.cells root List.mem_cons_self 0 (inv.rep.word root List.mem_cons_self)
  · obtain ⟨v, there, rfl⟩ := List.mem_map.mp inside
    rw [full v there v.base List.mem_cons_self]
  · refine (inv.pages v inside).congr (fun k _ => ?_) (fun b there => ?_) fun _ _ => rfl
    · rw [full v inside v.base List.mem_cons_self]
    · exact full v inside b (List.mem_cons_of_mem _ there)
  · obtain ⟨v, there, place⟩ := inv.placed l inside
    refine ⟨v, there, place.congr fun b block => ⟨?_, rfl⟩⟩
    rw [full v there b (by simp [PageView.starts, block])]

end Views

end Gapxos
