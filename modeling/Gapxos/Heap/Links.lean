import Gapxos.Heap.Layout

/-! The link words of one page: the heads of its two lists and the next-pointers of its
blocks. A walk ends at such a word, and a store into it changes nothing else of the page. -/
namespace Gapxos
open Linked Radix

abbrev lastLink (x : Nat) (k : Fin 3) (A : List Nat) : Nat × Fin 3 := lastCell 0 x k A

abbrev setLink (F : Fields) (c : Nat × Fin 3) (u : Nat) : Fields := store F c.1 c.2 u

structure Relinked (v : PageView) (F F' : Fields) : Prop where
  out : ∀ x ∉ v.starts, F' x = F x
  next : F' v.base 0 = F v.base 0
  kept : ∀ x ∈ v.free ++ v.allocated, ∀ k ≠ 0, F' x k = F x k

variable {h : Heap} {F F₁ F₂ : Fields} {ext : Nat → Nat} {xs A : List Nat} {v : PageView}
  {k : Fin 3} {b t u : Nat}

theorem Relinked.trans (first : Relinked v F F₁) (second : Relinked v F₁ F₂) : Relinked v F F₂ :=
  ⟨fun x out => (second.out x out).trans (first.out x out), second.next.trans first.next,
    fun x inside k ne => (second.kept x inside k ne).trans (first.kept x inside k ne)⟩

theorem Relinked.length (rel : Relinked v F F₁) {x : Nat} (block : x ≠ v.base) :
    F₁ x 2 = F x 2 := by
  by_cases inside : x ∈ v.starts
  · exact rel.kept x ((List.mem_cons.mp inside).resolve_left block) 2 (by decide)
  · rw [rel.out x inside]

theorem hung_length {x : Nat} (ne : x ≠ b) (list : Hung 0 0 F x k A t) :
    Hung 0 0 (store F b 2 u) x k A t :=
  (hung_frame (fun hit => ne hit.1) fun _ _ hit => absurd hit.2 (by decide)).mpr list

/-- A link word of the page: the head of a list or the next-pointer of a block. -/
def IsLink (v : PageView) (c : Nat × Fin 3) : Prop :=
  (c.1 = v.base ∧ c.2 ≠ 0) ∨ (c.1 ∈ v.free ++ v.allocated ∧ c.2 = 0)

theorem isLink_last (list : k ≠ 0) (sub : ∀ a ∈ A, a ∈ v.free ++ v.allocated) :
    IsLink v (lastLink v.base k A) := by
  rcases lastCell_mem (0 : Fin 3) v.base k A with eq | ⟨a, inside, eq⟩
  · rw [lastLink, eq]
    exact .inl ⟨rfl, list⟩
  · rw [lastLink, eq]
    exact .inr ⟨sub a inside, rfl⟩

theorem IsLink.mem {c : Nat × Fin 3} (link : IsLink v c) : c.1 ∈ v.starts := by
  rcases link with ⟨base, _⟩ | ⟨block, _⟩
  · rw [base]
    exact List.mem_cons_self
  · exact List.mem_cons_of_mem _ block

section Page

variable (once : v.starts.Nodup)
include once

theorem base_ne_block (inside : b ∈ v.free ++ v.allocated) : b ≠ v.base :=
  fun same => (List.nodup_cons.mp once).1 (same ▸ inside)

theorem IsLink.relinked {c : Nat × Fin 3} (link : IsLink v c) (F : Fields) (u : Nat) :
    Relinked v F (setLink F c u) := by
  refine ⟨fun x out => store_other_frame ?_, store_other ?_, fun x inside k ne => store_other ?_⟩
  · rintro rfl
    exact out link.mem
  · rintro ⟨base, zero⟩
    rcases link with ⟨_, ne⟩ | ⟨block, _⟩
    · exact ne zero.symm
    · exact base_ne_block once block base.symm
  · rintro ⟨block, field⟩
    rcases link with ⟨base, _⟩ | ⟨_, zero⟩
    · exact base_ne_block once inside (block.trans base)
    · exact ne (field.trans zero)

variable (rep : Rep h F ext xs) (sub : ∀ x ∈ v.starts, x ∈ xs)
include rep sub

theorem walk_page (room : 8 * k.val + 8 ≤ ext v.base) (hung : Hung 0 0 F v.base k A t)
    (absent : t ∉ A) (part : A.Sublist (v.free ++ v.allocated)) :
    h.cellOf t (v.base + 8 * k) walkBound = some (cellAddr (lastLink v.base k A)) := by
  have inside : ∀ a ∈ A, a ∈ xs := fun a inside =>
    sub a (List.mem_cons_of_mem _ (part.subset inside))
  refine rep.cellOf hung absent (sub _ List.mem_cons_self) room inside (rep.length_lt ?_ inside)
  exact part.nodup (List.nodup_cons.mp once).2

omit once in
theorem store_link {c : Nat × Fin 3} (header : ∀ x ∈ v.starts, headerSize ≤ ext x)
    (link : IsLink v c) (small : u < 2 ^ 64) : ∃ h', h.store (cellAddr c) u = some h' ∧
      h.Kept xs h' ∧ Rep h' (setLink F c u) ext xs := by
  refine rep.store (sub _ link.mem) ?_ small
  have := header _ link.mem
  have := c.2.isLt
  simp only [headerSize] at *
  omega

variable (header : ∀ x ∈ v.starts, headerSize ≤ ext x)
include header

theorem unlink_block {B : List Nat} (list : k ≠ 0) (hung : Hung 0 0 F v.base k (A ++ b :: B) 0)
    (part : (A ++ b :: B).Sublist (v.free ++ v.allocated)) :
    ∃ h', h.cellOf b (v.base + 8 * k) walkBound = some (cellAddr (lastLink v.base k A)) ∧
      h.load b = some (F b 0) ∧ h.store (cellAddr (lastLink v.base k A)) (F b 0) = some h' ∧
      h.Kept xs h' ∧ Rep h' (setLink F (lastLink v.base k A) (F b 0)) ext xs ∧
      Hung 0 0 (setLink F (lastLink v.base k A) (F b 0)) v.base k (A ++ B) 0 := by
  have nodup := part.nodup (List.nodup_cons.mp once).2
  have left : A.Sublist (v.free ++ v.allocated) := (List.sublist_append_left ..).trans part
  have room : 8 * k.val + 8 ≤ ext v.base := by
    have := header v.base List.mem_cons_self
    have := k.isLt
    simp only [headerSize] at *
    omega
  have there : b ∈ xs := sub b (List.mem_cons_of_mem _ (part.subset (by simp)))
  have walk := walk_page once rep sub room (hung_append.mp hung).1
    (fun inside => (List.nodup_append.mp nodup).2.2 b inside b List.mem_cons_self rfl) left
  obtain ⟨h', eq, kept, rep'⟩ := store_link rep sub header
    (isLink_last list fun a inside => left.subset inside)
    (rep.field_lt (k := 0) there (rep.word b there))
  exact ⟨h', walk, rep.load_first there, eq, kept, rep', hung_unlink hung nodup (.inr list)⟩

theorem push_allocated {y : Nat} (hung : Hung 0 0 F v.base 2 v.allocated 0) (there : y ∈ xs)
    (ne : y ≠ 0) (ends : F y 0 = 0) (fresh : y ∉ v.allocated) :
    ∃ h', h.cellOf 0 (v.base + 16) walkBound =
        some (cellAddr (lastLink v.base 2 v.allocated)) ∧
      h.store (cellAddr (lastLink v.base 2 v.allocated)) y = some h' ∧ h.Kept xs h' ∧
      Rep h' (setLink F (lastLink v.base 2 v.allocated) y) ext xs ∧
      Hung 0 0 (setLink F (lastLink v.base 2 v.allocated) y) v.base 2 (v.allocated ++ [y]) 0 := by
  have part : v.allocated.Sublist (v.free ++ v.allocated) := List.sublist_append_right ..
  have walk := walk_page (k := 2) once rep sub (header v.base List.mem_cons_self) hung
    (fun inside => seg_ne hung 0 inside rfl) part
  obtain ⟨h', eq, kept, rep'⟩ := store_link rep sub header
    (isLink_last (k := 2) (by decide) fun a inside => part.subset inside) (u := y)
    (by have := rep.bound there; have := rep.word y there; omega)
  exact ⟨h', walk, eq, kept, rep', hung_push hung (part.nodup (List.nodup_cons.mp once).2)
    (.inr (by decide)) ne ends fresh (.inr (by decide))⟩

end Page

theorem HeapInv.relink {root : Nat} {h' : Heap} {F' : Fields} {live live' : List (Nat × Nat)}
    {V W : List PageView} {v' : PageView} (inv : HeapInv root h F ext live (V ++ v :: W))
    (held : h'.held = h.held) (rep : Rep h' F' ext (starts root (V ++ v :: W)))
    (rel : Relinked v F F') (base : v'.base = v.base) (perm : v.starts.Perm v'.starts)
    (free : Hung 0 0 F' v.base 1 v'.free 0) (allocated : Hung 0 0 F' v.base 2 v'.allocated 0)
    (room : ∀ b ∈ v'.free, headerSize + F b 2 ≤ ext b)
    (placed : ∀ l ∈ live', LiveIn F ext v' l ∨ ∃ u ∈ V ++ W, LiveIn F ext u l)
    (once : (live'.map Prod.fst).Nodup) : HeapInv root h' F' ext live' (V ++ v' :: W) := by
  have page := inv.pages v (by simp)
  have block : ∀ x ∈ v'.free ++ v'.allocated, x ∈ v.free ++ v.allocated := by
    have blocks := perm
    rw [PageView.starts, PageView.starts, base] at blocks
    exact fun x inside => blocks.cons_inv.mem_iff.mpr inside
  have home : Homed h.held ext v' := by
    obtain ⟨bytes, range, place⟩ := inv.homes v (by simp)
    refine ⟨bytes, by rw [base]; exact range, fun x inside => ?_⟩
    rw [base]
    exact place x (perm.mem_iff.mpr inside)
  refine inv.replace base held home
    (rep.perm ((starts_perm root V W v).trans (perm.append_right _)))
    (fun x inside => ⟨rel.out x (rest_out inv.rep.nodup inside), rfl⟩) rel.next
    ⟨base ▸ free, base ▸ allocated, fun x inside => ?_, fun x inside => ?_, fun x inside => ?_⟩
    (fun l inside => ?_) once
  · rw [rel.kept x (block x inside) 1 (by decide), base]
    exact page.owner x (block x inside)
  · exact page.header x (perm.mem_iff.mpr inside)
  · rw [rel.kept x (block x (List.mem_append_left _ inside)) 2 (by decide)]
    exact room x inside
  · refine (placed l inside).imp (fun here => here.congr fun x inside => ⟨?_, rfl⟩) id
    exact rel.kept x (block x (List.mem_append_right _ inside)) 2 (by decide)

end Gapxos
