import Gapxos.Heap.Release
import Gapxos.Heap.Take
import Gapxos.Lib.Runs

/-! Runs of malloc and free. What the callers hold stays apart from each other and from the
headers, as long as no call meets one of the slips of free or a block too large for its
pages. -/
namespace Gapxos
open Bytes Linked Extents Runs

/-- The heap and its callers: `live` has the pointers that were returned and not freed,
with the sizes asked for. -/
structure HeapVm where
  heap : Heap
  live : List (Nat × Nat)

/- The callers also write to what they hold. `base` is what malloc_pages returns. -/
inductive HeapCall
  | malloc (size base : Nat)
  | free (p : Nat)
  | store (a : Nat) (byte : BitVec 8)

def HeapCall.step (root : Nat) (vm : HeapVm) : HeapCall → Option HeapVm
  | malloc size base =>
    (Gapxos.malloc root size base vm.heap).map fun r => ⟨r.2, (r.1, size) :: vm.live⟩
  | free p => (Gapxos.free p vm.heap).map fun h => ⟨h, vm.live.filter fun l => l.1 ≠ p⟩
  | store a byte =>
    some { vm with heap := { vm.heap with mem := write vm.heap.mem a 1 byte.toNat } }

/-- The pages of the heap and the blocks on their lists, as they stand in memory. -/
structure Listed (F : Fields) (root : Nat) (views : List PageView) : Prop where
  chain : Hung 0 0 F root 0 (views.map PageView.base) 0
  lists : ∀ v ∈ views, Hung 0 0 F v.base 1 v.free 0 ∧ Hung 0 0 F v.base 2 v.allocated 0

/-- The callers free and write what they hold, and malloc_pages returns what it promises. -/
def HeapCall.Met (root : Nat) (vm : HeapVm) : HeapCall → Prop
  | malloc size base => ∀ views, Listed vm.heap.fields root views →
    NoFit vm.heap.fields views size → FreshPages vm.heap base (4096 * pagesFor size)
  | free p => ∃ size, (p, size) ∈ vm.live
  | store a _ => ∃ l ∈ vm.live, l.1 ≤ a ∧ a < l.1 + l.2

/-- New pages hold the block, and the loop of free does no harm. -/
def HeapCall.Clear (root : Nat) (vm : HeapVm) : HeapCall → Prop
  | malloc size _ => ∀ views, Listed vm.heap.fields root views →
    NoFit vm.heap.fields views size → size + 2 * headerSize ≤ 4096 * pagesFor size
  | free p => ∀ views, Listed vm.heap.fields root views → ∀ v ∈ views, ∀ b ∈ v.allocated,
    p = b + headerSize → ReleaseClear vm.heap.fields v b
  | store _ _ => True

/-- Two ranges, start and number of bytes, have no byte in common. -/
def RangesOff (r s : Nat × Nat) : Prop :=
  ∀ a, ¬ ((r.1 ≤ a ∧ a < r.1 + r.2) ∧ s.1 ≤ a ∧ a < s.1 + s.2)

/-- What is held is apart from itself and from all headers, of pages and of blocks. -/
structure HeapApart (root : Nat) (vm : HeapVm) (views : List PageView) : Prop where
  listed : Listed vm.heap.fields root views
  placed : ∀ l ∈ vm.live, ∃ v ∈ views, ∃ b ∈ v.allocated, l.1 = b + headerSize
  live : vm.live.Pairwise RangesOff
  headers : ∀ l ∈ vm.live, ∀ v ∈ views, ∀ x ∈ v.starts, RangesOff l (x, headerSize)

variable {root : Nat} {vm : HeapVm} {views : List PageView} {ext : Nat → Nat} {h : Heap}
  {F : Fields} {live : List (Nat × Nat)}

theorem HeapInv.listed (inv : HeapInv root h F ext live views) : Listed F root views :=
  ⟨inv.chain, fun v inside => ⟨(inv.pages v inside).free, (inv.pages v inside).allocated⟩⟩

theorem HeapInv.apart (inv : HeapInv root vm.heap F ext vm.live views) :
    HeapApart root vm views := by
  have eight : headerSize = 24 := rfl
  -- an allocation lies in what its block owns, behind the header
  have block : ∀ l ∈ vm.live, ∃ v ∈ views, ∃ b ∈ v.allocated, l.1 = b + headerSize ∧
      b ∈ starts root views ∧ headerSize + l.2 ≤ ext b := by
    intro l inside
    obtain ⟨v, there, b, allocated, ptr, _, room⟩ := inv.placed l inside
    exact ⟨v, there, b, allocated, ptr,
      mem_starts there (by simp [PageView.starts, allocated]), room⟩
  refine ⟨inv.fields.listed, fun l inside => ?_, ?_, fun l inside v there x header => ?_⟩
  · obtain ⟨v, there, b, allocated, ptr, _⟩ := block l inside
    exact ⟨v, there, b, allocated, ptr⟩
  · have once : vm.live.Pairwise fun l k => l.1 ≠ k.1 := List.pairwise_map.mp inv.once
    refine (List.Pairwise.and_mem.mp once).imp fun {l k} both => ?_
    obtain ⟨one, other, ne⟩ := both
    obtain ⟨_, _, b, _, ptr, mem, room⟩ := block l one
    obtain ⟨_, _, c, _, ptr', mem', room'⟩ := block k other
    rintro a ⟨⟨low, high⟩, low', high'⟩
    rcases inv.rep.apart.off mem mem' (by omega) with below | above <;> omega
  · obtain ⟨_, _, b, _, ptr, mem, room⟩ := block l inside
    have own := (inv.pages v there).header x header
    rintro a ⟨⟨low, high⟩, low', high'⟩
    simp only at low' high'
    by_cases same : b = x
    · omega
    · rcases inv.rep.apart.off mem (mem_starts there header) same with below | above <;> omega

theorem HeapInv.store (inv : HeapInv root h F ext live views) {l : Nat × Nat} (inside : l ∈ live)
    {a : Nat} (low : l.1 ≤ a) (high : a < l.1 + l.2) (byte : Nat) :
    HeapInv root { h with mem := write h.mem a 1 byte } F ext live views := by
  have eight : headerSize = 24 := rfl
  obtain ⟨v, there, b, allocated, ptr, _, room⟩ := inv.placed l inside
  have mem : b ∈ starts root views := mem_starts there (by simp [PageView.starts, allocated])
  refine ⟨⟨inv.rep.apart, inv.rep.word, inv.rep.within, inv.rep.ends, fun x record k word => ?_⟩,
    inv.chain, inv.pages, inv.homes, inv.placed, inv.once⟩
  rw [← inv.rep.cells x record k word]
  refine read_write_other ?_
  by_cases same : b = x
  · have := k.isLt
    exact .inr (by omega)
  · rcases inv.rep.apart.off mem record same with below | above
    · exact .inl (by omega)
    · exact .inr (by omega)

def HeapSound (root : Nat) (vm : HeapVm) : Prop :=
  ∃ F ext views, HeapInv root vm.heap F ext vm.live views

theorem HeapCall.step_sound (root : Nat) (vm : HeapVm) (c : HeapCall) (sound : HeapSound root vm)
    (ok : c.Met root vm ∧ c.Clear root vm) :
    ∃ vm', c.step root vm = some vm' ∧ HeapSound root vm' := by
  obtain ⟨F, ext, views, inv⟩ := sound
  obtain ⟨met, clear⟩ := ok
  have inv := inv.fields
  have listed := inv.listed
  cases c with
  | malloc size base =>
    obtain ⟨p, h, F', ext', views', eq, inv'⟩ := malloc_step inv (met views listed)
      (clear views listed)
    exact ⟨⟨h, (p, size) :: vm.live⟩, by simp [HeapCall.step, eq], F', ext', views', inv'⟩
  | free p =>
    obtain ⟨size, used⟩ := met
    obtain ⟨h, F', ext', views', eq, inv'⟩ := free_step inv used (clear views listed)
    exact ⟨⟨h, vm.live.filter fun l => l.1 ≠ p⟩, by simp [HeapCall.step, eq],
      F', ext', views', inv'⟩
  | store a byte =>
    obtain ⟨l, inside, low, high⟩ := met
    exact ⟨_, rfl, _, ext, views, inv.store inside low high byte.toNat⟩

/-- Memory in which heap_root is NULL. -/
def emptyHeap (root : Nat) (mem : Memory) : HeapVm := ⟨⟨mem, [(root, 8)]⟩, []⟩

theorem emptyHeap_inv {mem : Memory} (null : read mem root 8 = 0) (bound : root + 8 ≤ 2 ^ 64) :
    HeapInv root (emptyHeap root mem).heap (emptyHeap root mem).heap.fields (fun _ => 8) [] [] := by
  refine ⟨⟨List.pairwise_singleton _ _, by simp, ?_, ?_, fun _ _ _ _ => rfl⟩, null, by simp,
    by simp,
    by simp, List.nodup_nil⟩
  · simp [starts, emptyHeap]
  · simpa [emptyHeap] using bound

theorem heap_run_apart (root : Nat) (mem : Memory) (null : read mem root 8 = 0)
    (bound : root + 8 ≤ 2 ^ 64) (calls : List HeapCall)
    (ok : All (HeapCall.step root) (fun vm c => c.Met root vm ∧ c.Clear root vm)
      (emptyHeap root mem) calls)
    (before : List HeapCall) (part : before <+: calls) :
    ∃ vm views, run (HeapCall.step root) (emptyHeap root mem) before = some vm ∧
      HeapApart root vm views := by
  obtain ⟨vm, eq, F, ext, views, inv⟩ := run_keeps (HeapCall.step_sound root) part
    ⟨_, _, _, emptyHeap_inv null bound⟩ ok
  exact ⟨vm, views, eq, inv.apart⟩

/- heap_root among the data of the kernel, and two places for pages. -/
def rootAt : Nat := 0xffffffff80100000
def pagesAt : Nat := 0xffff800001000000
def morePagesAt : Nat := 0xffff800001002000

def twoBlocks : List HeapCall := [.malloc 10 pagesAt, .malloc 3000 morePagesAt]

theorem freshPages_of {h : Heap} {base bytes : Nat} {held : List (Nat × Nat)} (eq : h.held = held)
    (ok : base ≠ 0 ∧ base + bytes ≤ 2 ^ 64 ∧
      ∀ r ∈ held, r.1 + r.2 ≤ base ∨ base + bytes ≤ r.1) : FreshPages h base bytes :=
  ⟨ok.1, ok.2.1, eq ▸ ok.2.2⟩

theorem twoBlocks_ok {calls : List HeapCall} {P : HeapVm → HeapCall → Prop}
    (weak : ∀ vm c, c.Met rootAt vm ∧ c.Clear rootAt vm → P vm c)
    (rest : ∀ vm, run (HeapCall.step rootAt) (emptyHeap rootAt fun _ => 0) twoBlocks = some vm →
      All (HeapCall.step rootAt) P vm calls) :
    All (HeapCall.step rootAt) P (emptyHeap rootAt fun _ => 0) (twoBlocks ++ calls) := by
  refine ⟨weak _ _ ⟨fun _ _ _ => freshPages_of rfl (by decide), fun _ _ _ => by decide⟩,
    fun vm eq => ⟨weak _ _ ⟨fun _ _ _ => ?_, fun _ _ _ => by decide⟩, fun vm' eq' => rest vm' ?_⟩⟩
  · have held : (HeapCall.step rootAt (emptyHeap rootAt fun _ => 0) (.malloc 10 pagesAt)).map
        (fun vm => vm.heap.held) = some [(pagesAt, 8192), (rootAt, 8)] := by decide
    rw [eq, Option.map_some, Option.some.injEq] at held
    exact freshPages_of held (by decide)
  · rw [twoBlocks, run, eq, Option.bind_some, run, eq', Option.bind_some, run]

/- The words of the lists with the two blocks. -/
def blockWords (F : Fields) : List Nat :=
  [F rootAt 0, F pagesAt 0, F pagesAt 1, F pagesAt 2, F (pagesAt + 24) 0, F (pagesAt + 24) 2,
    F (pagesAt + 4062) 0, F (pagesAt + 1038) 0]

theorem onePage_free {F : Fields} {views : List PageView} (listed : Listed F rootAt views)
    (root : F rootAt 0 = pagesAt) (next : F pagesAt 0 = 0) (free : F pagesAt 1 = pagesAt + 24)
    (last : F (pagesAt + 24) 0 = 0) :
    views.map PageView.base = [pagesAt] ∧
      ∀ v ∈ views, v.base = pagesAt ∧ v.free = [pagesAt + 24] := by
  have bases : views.map PageView.base = [pagesAt] :=
    seg_unique listed.chain ⟨root, by decide, next⟩
  refine ⟨bases, fun v inside => ?_⟩
  have base : v.base = pagesAt := by
    have there := List.mem_map_of_mem (f := PageView.base) inside
    rw [bases] at there
    exact List.mem_singleton.mp there
  have hung := (listed.lists v inside).1
  rw [base] at hung
  exact ⟨base, seg_unique hung ⟨free, by decide, last⟩⟩

theorem secondBlock_clear {F : Fields}
    (words : blockWords F = [pagesAt, 0, pagesAt + 24, pagesAt + 4062, 0, 990, pagesAt + 1038, 0])
    {views : List PageView} (listed : Listed F rootAt views) {v : PageView} (inside : v ∈ views)
    {b : Nat} (ptr : pagesAt + 1062 = b + headerSize) : ReleaseClear F v b := by
  simp only [blockWords, List.cons.injEq, and_true] at words
  obtain ⟨root, next, free, allocated, last, length, second, ends⟩ := words
  obtain ⟨base, frees⟩ := (onePage_free listed root next free last).2 v inside
  have hung := (listed.lists v inside).2
  rw [base] at hung
  have allocs : v.allocated = [pagesAt + 4062, pagesAt + 1038] :=
    seg_unique hung ⟨allocated, by decide, second, by decide, ends⟩
  obtain rfl : b = pagesAt + 1038 := by
    simp only [headerSize] at ptr
    omega
  have meets : pagesAt + 24 + headerSize + F (pagesAt + 24) 2 = pagesAt + 1038 := by
    rw [length]
    decide
  have found : v.free.find? (fun x => Meets F (pagesAt + 1038) x) = some (pagesAt + 24) := by
    rw [frees]
    exact List.find?_cons_of_pos (decide_eq_true (.inl meets))
  rw [ReleaseClear, found, allocs]
  simp only [meets, if_true]
  decide

theorem heap_run_apart_below : ∃ vm views,
    run (HeapCall.step rootAt) (emptyHeap rootAt fun _ => 0)
      (twoBlocks ++ [.free (pagesAt + 1062)]) = some vm ∧ HeapApart rootAt vm views := by
  refine heap_run_apart rootAt (fun _ => 0) (by decide) (by decide)
    (twoBlocks ++ [.free (pagesAt + 1062)]) ?_ _ (List.prefix_refl _)
  refine twoBlocks_ok (fun _ _ ok => ok) fun vm eq => ?_
  have state : (run (HeapCall.step rootAt) (emptyHeap rootAt fun _ => 0) twoBlocks).map
      (fun vm => (vm.live, blockWords vm.heap.fields)) =
      some ([(pagesAt + 1062, 3000), (pagesAt + 4086, 10)],
        [pagesAt, 0, pagesAt + 24, pagesAt + 4062, 0, 990, pagesAt + 1038, 0]) := by decide
  rw [eq, Option.map_some, Option.some.injEq, Prod.mk.injEq] at state
  obtain ⟨live, words⟩ := state
  refine ⟨⟨⟨3000, ?_⟩, ?_⟩, fun _ _ => trivial⟩
  · rw [live]
    exact List.mem_cons_self
  · exact fun views listed v inside b _ ptr => secondBlock_clear words listed inside ptr

/-- The first block is given back while the second one is behind it on the list: the free
list leads on to the second one, and a part of it is handed out again. -/
theorem heap_run_overlaps :
    All (HeapCall.step rootAt) (HeapCall.Met rootAt) (emptyHeap rootAt fun _ => 0)
      (twoBlocks ++ [.free (pagesAt + 4086), .malloc 1000 morePagesAt]) ∧
    ∃ vm, run (HeapCall.step rootAt) (emptyHeap rootAt fun _ => 0)
        (twoBlocks ++ [.free (pagesAt + 4086), .malloc 1000 morePagesAt]) = some vm ∧
      vm.live = [(pagesAt + 3062, 1000), (pagesAt + 1062, 3000)] ∧
      ∀ views, ¬ HeapApart rootAt vm views := by
  refine ⟨twoBlocks_ok (fun _ _ ok => ok.1) fun vm eq => ⟨⟨10, ?_⟩, fun vm' eq' => ⟨fun _ _ _ => ?_,
    fun _ _ => trivial⟩⟩, ?_⟩
  · have live : (run (HeapCall.step rootAt) (emptyHeap rootAt fun _ => 0) twoBlocks).map
        (fun vm => vm.live) = some [(pagesAt + 1062, 3000), (pagesAt + 4086, 10)] := by decide
    rw [eq, Option.map_some, Option.some.injEq] at live
    rw [live]
    exact List.mem_cons_of_mem _ List.mem_cons_self
  · have held : ((run (HeapCall.step rootAt) (emptyHeap rootAt fun _ => 0) twoBlocks).bind
        fun vm => HeapCall.step rootAt vm (.free (pagesAt + 4086))).map (fun vm => vm.heap.held) =
          some [(pagesAt, 8192), (rootAt, 8)] := by decide
    rw [eq, Option.bind_some, eq', Option.map_some, Option.some.injEq] at held
    exact freshPages_of held (by decide)
  · have live : (run (HeapCall.step rootAt) (emptyHeap rootAt fun _ => 0)
        (twoBlocks ++ [.free (pagesAt + 4086), .malloc 1000 morePagesAt])).map (fun vm => vm.live) =
          some [(pagesAt + 3062, 1000), (pagesAt + 1062, 3000)] := by decide
    obtain ⟨vm, eq, live⟩ := Option.map_eq_some_iff.mp live
    refine ⟨vm, eq, live, fun views apart => ?_⟩
    have off := apart.live
    rw [live] at off
    exact (List.pairwise_cons.mp off).1 _ List.mem_cons_self (pagesAt + 3062)
      ⟨by decide, by decide⟩

end Gapxos
