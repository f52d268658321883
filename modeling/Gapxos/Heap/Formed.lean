import Gapxos.Heap.Apart

/-! A heap of which no byte is lost: the blocks on the two lists of a page are all different,
they do not overlap, and together they are the page behind its header. -/
namespace Gapxos
open Bytes Linked Extents Radix Runs

def Heap.blockSize (h : Heap) (b : Nat) : Nat := headerSize + h.fields b 2

structure PageFormed (h : Heap) (v : PageView) : Prop where
  free : Hung 0 0 h.fields v.base 1 v.free 0
  allocated : Hung 0 0 h.fields v.base 2 v.allocated 0
  owner : ∀ b ∈ v.free ++ v.allocated, h.fields b 1 = v.base
  once : (v.free ++ v.allocated).Nodup
  apart : Apart h.blockSize (v.free ++ v.allocated)
  covers : ∀ a, (∃ b ∈ v.free ++ v.allocated, b ≤ a ∧ a < b + h.blockSize b) ↔
    v.base + headerSize ≤ a ∧ a < v.base + 4096
  home : ∃ bytes, (v.base, bytes) ∈ h.held ∧ 4096 ≤ bytes

/- The pages lie apart from each other and from the word heap_root, and all of it is
mapped. -/
structure WellFormed (root : Nat) (h : Heap) (views : List PageView) : Prop where
  chain : Hung 0 0 h.fields root 0 (views.map PageView.base) 0
  pages : ∀ v ∈ views, PageFormed h v
  apart : Apart (fun _ => 4096) (views.map PageView.base)
  word : ∃ r ∈ h.held, r.1 ≤ root ∧ root + 8 ≤ r.1 + r.2
  away : ∀ v ∈ views, root + 8 ≤ v.base ∨ v.base + 4096 ≤ root
  ends : ∀ r ∈ h.held, r.1 + r.2 ≤ 2 ^ 64

variable {root : Nat} {h : Heap} {F : Fields} {ext : Nat → Nat} {live : List (Nat × Nat)}
  {views : List PageView} {v : PageView} {xs : List Nat} {a x y : Nat}

def extents (root : Nat) (h : Heap) (views : List PageView) (x : Nat) : Nat :=
  if x = root then 8 else if x ∈ views.map PageView.base then headerSize else h.blockSize x

section Inv

variable (formed : WellFormed root h views)

theorem PageFormed.within (page : PageFormed h v) {b : Nat} (block : b ∈ v.free ++ v.allocated) :
    v.base + headerSize ≤ b ∧ b + h.blockSize b ≤ v.base + 4096 := by
  have own : 0 < h.blockSize b := Nat.lt_of_lt_of_le (by decide) (Nat.le_add_right headerSize _)
  have first := (page.covers b).mp ⟨b, block, Nat.le_refl b, by omega⟩
  have last := (page.covers (b + h.blockSize b - 1)).mp ⟨b, block, by omega, by omega⟩
  omega

include formed

theorem WellFormed.extents_base (inside : v ∈ views) :
    extents root h views v.base = headerSize := by
  have other : v.base ≠ root := by
    rcases formed.away v inside with above | below <;> omega
  rw [extents, if_neg other, if_pos (List.mem_map_of_mem inside)]

theorem WellFormed.extents_block (inside : v ∈ views) {b : Nat}
    (block : b ∈ v.free ++ v.allocated) : extents root h views b = h.blockSize b := by
  have within := (formed.pages v inside).within block
  have own : headerSize ≤ h.blockSize b := Nat.le_add_right ..
  have size : headerSize = 24 := rfl
  have other : b ≠ root := by
    rcases formed.away v inside with above | below <;> omega
  have out : b ∉ views.map PageView.base := by
    intro base
    by_cases same : b = v.base
    · omega
    · have off : b + 4096 ≤ v.base ∨ v.base + 4096 ≤ b :=
        formed.apart.off base (List.mem_map_of_mem inside) same
      omega
  rw [extents, if_neg other, if_neg out]

theorem WellFormed.record_within (inside : v ∈ views) (there : x ∈ v.starts) :
    v.base ≤ x ∧ headerSize ≤ extents root h views x ∧
      x + extents root h views x ≤ v.base + 4096 := by
  rcases List.mem_cons.mp there with rfl | block
  · rw [formed.extents_base inside]
    exact ⟨Nat.le_refl _, Nat.le_refl _, Nat.add_le_add_left (by decide) _⟩
  · have within := (formed.pages v inside).within block
    rw [formed.extents_block inside block]
    exact ⟨by omega, Nat.le_add_right .., within.2⟩

theorem WellFormed.records_apart : Apart (extents root h views) (starts root views) := by
  refine List.pairwise_cons.mpr ⟨fun x there => ?_, List.pairwise_flatMap.mpr ⟨?_, ?_⟩⟩
  · obtain ⟨v, inside, there⟩ := List.mem_flatMap.mp there
    have within := formed.record_within inside there
    have own : extents root h views root = 8 := if_pos rfl
    rw [Off, own]
    rcases formed.away v inside with above | below
    · exact .inl (by omega)
    · exact .inr (by omega)
  · intro v inside
    have page := formed.pages v inside
    refine List.pairwise_cons.mpr ⟨fun b block => .inl ?_, ?_⟩
    · rw [formed.extents_base inside]
      exact (page.within block).1
    · exact page.apart.rest fun b block => formed.extents_block inside block
  · refine (List.Pairwise.and_mem.mp (List.pairwise_map.mp formed.apart)).imp ?_
    rintro u v ⟨one, other, (off : u.base + 4096 ≤ v.base ∨ v.base + 4096 ≤ u.base)⟩ x there y
      there'
    have within := formed.record_within one there
    have within' := formed.record_within other there'
    rcases off with below | above
    · exact .inl (by omega)
    · exact .inr (by omega)

theorem WellFormed.inv : HeapInv root h h.fields (extents root h views) [] views := by
  have eight : 8 ≤ headerSize := by decide
  refine ⟨⟨formed.records_apart, fun x there => ?_, fun x there => ?_, formed.ends,
    fun _ _ _ _ => rfl⟩, formed.chain, fun v inside => ?_, fun v inside => ?_, by simp, by simp⟩
  · rcases List.mem_cons.mp there with rfl | there
    · exact Nat.le_of_eq (if_pos rfl).symm
    · obtain ⟨v, inside, there⟩ := List.mem_flatMap.mp there
      exact eight.trans (formed.record_within inside there).2.1
  · rcases List.mem_cons.mp there with rfl | there
    · rw [extents, if_pos rfl]
      exact formed.word
    · obtain ⟨v, inside, there⟩ := List.mem_flatMap.mp there
      have within := formed.record_within inside there
      obtain ⟨bytes, held, room⟩ := (formed.pages v inside).home
      exact ⟨_, held, within.1, by simp only; omega⟩
  · have page := formed.pages v inside
    refine ⟨page.free, page.allocated, page.owner, fun x there => ?_, fun b free => ?_⟩
    · exact (formed.record_within inside there).2.1
    · rw [formed.extents_block inside (List.mem_append_left _ free)]
      exact Nat.le_refl _
  · obtain ⟨bytes, held, room⟩ := (formed.pages v inside).home
    refine ⟨bytes, held, fun x there => ?_⟩
    have within := formed.record_within inside there
    omega

theorem WellFormed.exact (inside : v ∈ views) : Exact h.fields (extents root h views) v := by
  have page := formed.pages v inside
  refine ⟨formed.extents_base inside, fun b block => formed.extents_block inside block,
    fun a => ?_⟩
  rw [← page.covers a]
  constructor
  · rintro ⟨b, block, range⟩
    rw [formed.extents_block inside block] at range
    exact ⟨b, block, range⟩
  · rintro ⟨b, block, range⟩
    rw [← formed.extents_block inside block] at range
    exact ⟨b, block, range⟩

end Inv

section Form

theorem Rep.same_record (rep : Rep h F ext xs) (one : x ∈ xs) (other : y ∈ xs)
    (first : x ≤ a ∧ a < x + ext x) (second : y ≤ a ∧ a < y + ext y) : x = y := by
  by_contra ne
  rcases rep.apart.off one other ne with below | above <;> omega

theorem Exact.record (exact : Exact F ext v) (low : v.base ≤ a) (high : a < v.base + 4096) :
    ∃ x ∈ v.starts, x ≤ a ∧ a < x + ext x := by
  by_cases header : a < v.base + headerSize
  · exact ⟨v.base, List.mem_cons_self, low, by rw [exact.page]; exact header⟩
  · obtain ⟨b, block, range⟩ := (exact.covers a).mpr ⟨Nat.not_lt.mp header, high⟩
    exact ⟨b, List.mem_cons_of_mem _ block, range⟩

variable (inv : HeapInv root h F ext live views) (exact : ∀ v ∈ views, Exact F ext v)
include inv

theorem HeapInv.other_record {u : PageView} (one : u ∈ views) (other : v ∈ views) (ne : u ≠ v)
    (there : x ∈ u.starts) : x ∉ v.starts := by
  obtain ⟨V, W, rfl⟩ := List.append_of_mem other
  refine rest_out inv.rep.nodup (mem_starts ?_ there)
  simp only [List.mem_append, List.mem_cons] at one ⊢
  tauto

include exact

theorem HeapInv.pages_apart : Apart (fun _ => 4096) (views.map PageView.base) := by
  have once := (List.nodup_cons.mp (bases_nodup inv.rep.nodup)).2
  refine once.pairwise_of_forall_ne ?_
  intro p one q other ne
  obtain ⟨u, inside, rfl⟩ := List.mem_map.mp one
  obtain ⟨v, inside', rfl⟩ := List.mem_map.mp other
  by_contra overlap
  rw [Off, not_or, Nat.not_le, Nat.not_le] at overlap
  obtain ⟨x, there, range⟩ := (exact u inside).record (a := max u.base v.base) (by omega) (by omega)
  obtain ⟨y, there', range'⟩ := (exact v inside').record (a := max u.base v.base) (by omega)
    (by omega)
  obtain rfl := inv.rep.same_record (mem_starts inside there) (mem_starts inside' there') range
    range'
  exact inv.other_record inside inside' (fun same => ne (same ▸ rfl)) there there'

theorem HeapInv.root_away (inside : v ∈ views) : root + 8 ≤ v.base ∨ v.base + 4096 ≤ root := by
  by_contra overlap
  rw [not_or, Nat.not_le, Nat.not_le] at overlap
  have word := inv.rep.word root List.mem_cons_self
  obtain ⟨x, there, range⟩ := (exact v inside).record (a := max root v.base) (by omega) (by omega)
  obtain rfl := inv.rep.same_record List.mem_cons_self (mem_starts inside there)
    (a := max root v.base) (by omega) range
  exact (List.nodup_cons.mp inv.rep.nodup).1 (List.mem_flatMap.mpr ⟨v, inside, there⟩)

theorem HeapInv.pageFormed (inside : v ∈ views) : PageFormed h v := by
  have page := inv.fields.pages v inside
  have whole := exact v inside
  have once := (List.nodup_cons.mp (view_nodup inv.rep.nodup inside)).2
  have start : ∀ b ∈ v.free ++ v.allocated, b ∈ v.starts := fun b block =>
    List.mem_cons_of_mem _ block
  have size : ∀ b ∈ v.free ++ v.allocated, h.blockSize b = ext b := by
    intro b block
    rw [Heap.blockSize, inv.fields_eq inside (start b block), whole.own b block]
  refine ⟨page.free, page.allocated, page.owner, once, ?_, fun a => ?_, ?_⟩
  · refine once.pairwise_of_forall_ne fun b one c other ne => ?_
    rw [Off, size b one, size c other]
    exact inv.rep.apart.off (mem_starts inside (start b one)) (mem_starts inside (start c other)) ne
  · rw [← whole.covers a]
    constructor
    · rintro ⟨b, block, range⟩
      rw [size b block] at range
      exact ⟨b, block, range⟩
    · rintro ⟨b, block, range⟩
      rw [← size b block] at range
      exact ⟨b, block, range⟩
  · obtain ⟨bytes, held, place⟩ := inv.homes v inside
    refine ⟨bytes, held, ?_⟩
    obtain ⟨b, block, range⟩ := (whole.covers (v.base + 4095)).mpr
      ⟨Nat.add_le_add_left (by decide) _, by omega⟩
    have := place b (start b block)
    omega

theorem HeapInv.wellFormed : WellFormed root h views := by
  refine ⟨inv.fields.chain, fun v inside => inv.pageFormed exact inside, inv.pages_apart exact, ?_,
    fun v inside => inv.root_away exact inside, inv.rep.ends⟩
  obtain ⟨r, held, low, high⟩ := inv.rep.within root List.mem_cons_self
  have word := inv.rep.word root List.mem_cons_self
  exact ⟨r, held, low, by omega⟩

end Form

/- A page after two calls of malloc, and the words of its records. -/
def twoView (base : Nat) : PageView := ⟨base, [base + 24], [base + 4062, base + 1038]⟩

def recordWords (F : Fields) (base : Nat) : List (List Nat) :=
  [base, base + 24, base + 4062, base + 1038].map fun x => [F x 0, F x 1, F x 2]

def twoWords (base : Nat) : List (List Nat) :=
  [[0, base + 24, base + 4062], [0, base, 990], [base + 1038, base, 10], [0, base, 3000]]

theorem twoView_formed {root base : Nat} {h : Heap} (nonnull : base ≠ 0)
    (first : h.fields root 0 = base)
    (words : recordWords h.fields base = twoWords base) (held : h.held = [(base, 8192), (root, 8)])
    (ends : base + 8192 ≤ root ∧ root + 8 ≤ 2 ^ 64) : WellFormed root h [twoView base] := by
  simp only [recordWords, twoWords, List.map_cons, List.map_nil, List.cons.injEq, and_true] at words
  obtain ⟨⟨next, free, allocated⟩, ⟨last, owner, length⟩, ⟨second, owner₁, length₁⟩,
    end₂, owner₂, length₂⟩ := words
  have size : h.blockSize (base + 24) = 1014 := by rw [Heap.blockSize, length, headerSize]
  have size₁ : h.blockSize (base + 4062) = 34 := by rw [Heap.blockSize, length₁, headerSize]
  have size₂ : h.blockSize (base + 1038) = 3024 := by rw [Heap.blockSize, length₂, headerSize]
  have blocks : ∀ b, b ∈ (twoView base).free ++ (twoView base).allocated ↔
      b = base + 24 ∨ b = base + 4062 ∨ b = base + 1038 := by simp [twoView]
  have covers : ∀ a, (∃ b, (b = base + 24 ∨ b = base + 4062 ∨ b = base + 1038) ∧
      b ≤ a ∧ a < b + h.blockSize b) ↔ base + headerSize ≤ a ∧ a < base + 4096 := by
    intro a
    rw [headerSize]
    constructor
    · rintro ⟨b, rfl | rfl | rfl, low, high⟩ <;> omega
    · rintro ⟨low, high⟩
      by_cases below : a < base + 1038
      · exact ⟨base + 24, .inl rfl, by omega, by omega⟩
      · by_cases above : base + 4062 ≤ a
        · exact ⟨base + 4062, .inr (.inl rfl), by omega, by omega⟩
        · exact ⟨base + 1038, .inr (.inr rfl), by omega, by omega⟩
  have page : PageFormed h (twoView base) := by
    refine ⟨⟨free, by omega, last⟩, ⟨allocated, by omega, second, by omega, end₂⟩, ?_, ?_, ?_, ?_,
      8192, ?_, by decide⟩
    · simp [twoView, owner, owner₁, owner₂]
    · simp [twoView]
    · simp [twoView, Apart, Off, size, size₁, size₂]
    · simp only [blocks]
      exact covers
    · simp [held, twoView]
  refine ⟨⟨first, nonnull, next⟩, ?_, ?_, ⟨(root, 8), ?_, ?_⟩, ?_, ?_⟩
  · simpa using page
  · simp [Apart]
  · simp [held]
  · simp
  · simp [twoView]
    omega
  · simp [held]
    omega

theorem twoBlocks_words : ∃ vm, run (HeapCall.step rootAt) (emptyHeap rootAt fun _ => 0) twoBlocks =
    some vm ∧ recordWords vm.heap.fields pagesAt = twoWords pagesAt ∧
      vm.heap.held = [(pagesAt, 8192), (rootAt, 8)] ∧
      WellFormed rootAt vm.heap [twoView pagesAt] := by
  have state : (run (HeapCall.step rootAt) (emptyHeap rootAt fun _ => 0) twoBlocks).map
      (fun vm => (vm.heap.fields rootAt 0, recordWords vm.heap.fields pagesAt, vm.heap.held)) =
      some (pagesAt, twoWords pagesAt, [(pagesAt, 8192), (rootAt, 8)]) := by decide
  obtain ⟨vm, eq, same⟩ := Option.map_eq_some_iff.mp state
  simp only [Prod.mk.injEq] at same
  obtain ⟨first, words, held⟩ := same
  exact ⟨vm, eq, words, held, twoView_formed (by decide) first words held (by decide)⟩

end Gapxos
