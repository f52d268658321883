import Gapxos.Heap.Links

/-! A block is given back. It leaves the allocated list, and the free list is walked for a
neighbour to join. -/
namespace Gapxos
open Bytes Linked Extents Radix

variable {root : Nat} {h h' : Heap} {F F' : Fields} {ext ext' : Nat → Nat} {xs : List Nat}
  {live : List (Nat × Nat)} {views V W : List PageView} {v : PageView}

/-- The free block `x` ends where `blk` begins, or begins where it ends. -/
def Meets (F : Fields) (blk x : Nat) : Prop :=
  x + headerSize + F x 2 = blk ∨ blk + headerSize + F blk 2 = x

instance (F : Fields) (blk x : Nat) : Decidable (Meets F blk x) :=
  inferInstanceAs (Decidable (_ ∨ _))

def parentOf (p x : Nat) (k : Fin 3) : List Nat → Nat
  | [] => p
  | y :: Q => parentOf (x + 8 * k) y 0 Q

theorem parentOf_append (p x : Nat) (k : Fin 3) (Q : List Nat) (y : Nat) :
    parentOf p x k (Q ++ [y]) = cellAddr (lastCell 0 x k Q) := by
  induction Q generalizing p x k with
  | nil => rfl
  | cons a Q ih => exact ih (x + 8 * k) a 0

theorem wrap_eq {a b : Nat} (le : a ≤ 2 ^ 64) (lt : b < 2 ^ 64) (ne : b ≠ 0) :
    a % 2 ^ 64 = b ↔ a = b := by
  omega

structure Sized (F : Fields) (ext : Nat → Nat) (xs : List Nat) (x : Nat) : Prop where
  mem : x ∈ xs
  nonnull : x ≠ 0
  room : headerSize + F x 2 ≤ ext x

section Walk

variable {blk p x n w : Nat} {k : Fin 3} {Q R : List Nat}

theorem Sized.header (sized : Sized F ext xs x) : headerSize ≤ ext x :=
  Nat.le_trans (Nat.le_add_right _ _) sized.room

theorem Rep.end_eq (rep : Rep h F ext xs) (one : Sized F ext xs x) (other : Sized F ext xs blk) :
    (x + headerSize + F x 2) % 2 ^ 64 = blk ↔ x + headerSize + F x 2 = blk := by
  have bound := rep.bound one.mem
  have bound' := rep.bound other.mem
  have room := one.room
  have room' := other.header
  have size : headerSize = 24 := rfl
  exact wrap_eq (by omega) (by omega) other.nonnull

theorem Rep.giveBack_skip (rep : Rep h F ext xs) (block : Sized F ext xs blk)
    (hung : Hung 0 0 F x k (Q ++ R) 0) (inside : x ∈ xs) (room : 8 * k.val + 8 ≤ ext x)
    (sized : ∀ y ∈ Q, Sized F ext xs y) (off : ∀ y ∈ Q, ¬ Meets F blk y) :
    h.giveBack blk p (x + 8 * k) (n + Q.length) =
      h.giveBack blk (parentOf p x k Q) (cellAddr (lastCell 0 x k Q)) n := by
  induction Q generalizing p x k with
  | nil => rfl
  | cons y Q ih =>
    obtain ⟨here, _, rest⟩ := hung
    have sized_y := sized y List.mem_cons_self
    have apart := off y List.mem_cons_self
    have below : ¬ (y + headerSize + F y 2) % 2 ^ 64 = blk :=
      fun eq => apart (.inl ((rep.end_eq sized_y block).mp eq))
    have above : ¬ (blk + headerSize + F blk 2) % 2 ^ 64 = y :=
      fun eq => apart (.inr ((rep.end_eq block sized_y).mp eq))
    have step : h.giveBack blk p (x + 8 * k) (n + Q.length + 1) =
        h.giveBack blk (x + 8 * k) (y + 8 * (0 : Fin 3)) (n + Q.length) := by
      simp only [Heap.giveBack, rep.load inside room, here, if_neg sized_y.nonnull,
        rep.load_third sized_y.mem sized_y.header, rep.load_third block.mem block.header,
        if_neg below, if_neg above, Option.bind_eq_bind, Option.bind_some]
      rfl
    rw [List.length_cons, ← Nat.add_assoc, step]
    exact ih rest sized_y.mem (rep.word y sized_y.mem)
      (fun a there => sized a (List.mem_cons_of_mem y there))
      fun a there => off a (List.mem_cons_of_mem y there)

theorem Rep.giveBack_append (rep : Rep h F ext xs) (inside : x ∈ xs)
    (room : 8 * k.val + 8 ≤ ext x) (last : F x k = 0) :
    h.giveBack blk p (x + 8 * k) (n + 1) = h.store (x + 8 * k) blk := by
  simp only [Heap.giveBack, rep.load inside room, last, if_true, Option.bind_eq_bind,
    Option.bind_some]

theorem Rep.giveBack_below (rep : Rep h F ext xs) (block : Sized F ext xs blk)
    (sized : Sized F ext xs w) (inside : x ∈ xs) (room : 8 * k.val + 8 ≤ ext x) (here : F x k = w)
    (meet : w + headerSize + F w 2 = blk) : h.giveBack blk p (x + 8 * k) (n + 1) =
      h.store (w + 16) ((F w 2 + (F blk 2 + headerSize)) % 2 ^ 64) := by
  simp only [Heap.giveBack, rep.load inside room, here, if_neg sized.nonnull,
    rep.load_third sized.mem sized.header, rep.load_third block.mem block.header,
    if_pos ((rep.end_eq sized block).mpr meet), Option.bind_eq_bind, Option.bind_some]

theorem Rep.giveBack_above (rep : Rep h F ext xs) (block : Sized F ext xs blk)
    (sized : Sized F ext xs w) (inside : x ∈ xs) (room : 8 * k.val + 8 ≤ ext x) (here : F x k = w)
    (apart : w + headerSize + F w 2 ≠ blk) (meet : blk + headerSize + F blk 2 = w) :
    h.giveBack blk p (x + 8 * k) (n + 1) = (h.store p blk).bind fun h =>
      (h.load (x + 8 * k)).bind fun v => (h.load (v + 16)).bind fun length =>
        (h.load (blk + 16)).bind fun own =>
          h.store (blk + 16) ((own + (length + headerSize)) % 2 ^ 64) := by
  simp only [Heap.giveBack, rep.load inside room, here, if_neg sized.nonnull,
    rep.load_third sized.mem sized.header, rep.load_third block.mem block.header,
    if_neg (mt (rep.end_eq sized block).mp apart), if_pos ((rep.end_eq block sized).mpr meet),
    Option.bind_eq_bind, Option.bind_some]

end Walk

theorem Rep.restrict {ys : List Nat} (rep : Rep h F ext xs) (once : ys.Nodup)
    (sub : ∀ y ∈ ys, y ∈ xs) : Rep h F ext ys :=
  ⟨once.pairwise_of_forall_ne fun a one b other ne => rep.apart.off (sub a one) (sub b other) ne,
    fun y inside => rep.word y (sub y inside), fun y inside => rep.within y (sub y inside),
    rep.ends, fun y inside => rep.cells y (sub y inside)⟩

theorem Rep.join {x y : Nat} (rep : Rep h F ext xs) (one : x ∈ xs) (other : y ∈ xs)
    (header : headerSize ≤ ext x) (meet : x + ext x = y)
    (home : ∃ r ∈ h.held, r.1 ≤ x ∧ y + ext y ≤ r.1 + r.2) :
    ∃ ext', Rep h F ext' (xs.erase y) ∧ ext' x = ext x + ext y ∧ ∀ z, z ≠ x → ext' z = ext z := by
  have size : headerSize = 24 := rfl
  have ne : x ≠ y := by omega
  have left : x ∈ xs.erase y := (List.mem_erase_of_ne ne).mpr one
  have perm : xs.Perm (x :: y :: (xs.erase y).erase x) :=
    ((List.perm_cons_erase other).trans ((List.perm_cons_erase left).cons y)).trans (.swap ..)
  have erased : ∀ z ∈ (xs.erase y).erase x, z ∈ xs ∧ z ≠ x := fun z inside => by
    have inner := ((rep.nodup.erase y).mem_erase_iff).mp inside
    exact ⟨List.mem_of_mem_erase inner.2, inner.1⟩
  refine ⟨Function.update ext x (ext x + ext y), ?_, Function.update_self ..,
    fun z ne => Function.update_of_ne ne ..⟩
  have own : Function.update ext x (ext x + ext y) x = ext x + ext y := Function.update_self ..
  have same : ∀ z, z ≠ x → Function.update ext x (ext x + ext y) z = ext z :=
    fun z ne => Function.update_of_ne ne ..
  generalize Function.update ext x (ext x + ext y) = ext' at own same
  have apart : Apart ext' (x :: (xs.erase y).erase x) :=
    (rep.apart.perm perm).join (fun z inside => same z (erased z inside).2)
      (fun z inside => Nat.lt_of_lt_of_le (by decide) (rep.word z (erased z inside).1)) meet own
  refine ⟨apart.perm (List.perm_cons_erase left).symm, fun z inside => ?_, fun z inside => ?_,
    rep.ends, fun z inside k room => ?_⟩
  · by_cases hit : z = x
    · rw [hit, own]
      omega
    · rw [same z hit]
      exact rep.word z (List.mem_of_mem_erase inside)
  · by_cases hit : z = x
    · obtain ⟨r, held, low, high⟩ := home
      rw [hit, own]
      exact ⟨r, held, low, by omega⟩
    · rw [same z hit]
      exact rep.within z (List.mem_of_mem_erase inside)
  · refine rep.cells z (List.mem_of_mem_erase inside) k ?_
    by_cases hit : z = x
    · have := k.isLt
      rw [hit]
      omega
    · rw [same z hit] at room
      exact room

structure TakenOver (v : PageView) (F F' : Fields) (ext ext' : Nat → Nat) (x y : Nat) : Prop where
  length : F' x 2 = F x 2 + (F y 2 + headerSize)
  lengths : ∀ z, z ≠ v.base → z ≠ x → F' z 2 = F z 2
  own : ext' x = ext x + ext y
  same : ∀ z, z ≠ x → ext' z = ext z

section TakenOver

variable {v' : PageView} {x y : Nat} (taken : TakenOver v F F' ext ext' x y)
include taken

theorem TakenOver.homed {ranges : List (Nat × Nat)} (home : Homed ranges ext v)
    (base : v'.base = v.base) (one : x ∈ v.starts) (other : y ∈ v.starts) (touch : x + ext x = y)
    (fewer : ∀ z ∈ v'.starts, z ∈ v.starts) : Homed ranges ext' v' := by
  obtain ⟨bytes, range, place⟩ := home
  refine ⟨bytes, base ▸ range, fun z inside => ?_⟩
  rw [base]
  by_cases hit : z = x
  · have first := place x one
    have second := place y other
    have own := taken.own
    rw [hit]
    omega
  · rw [taken.same z hit]
    exact place z (fewer z inside)

theorem TakenOver.page (page : PageInv F ext v) (base : v'.base = v.base)
    (fewer : ∀ z ∈ v'.starts, z ∈ v.starts)
    (free : Hung 0 0 F' v.base 1 v'.free 0) (allocated : Hung 0 0 F' v.base 2 v'.allocated 0)
    (owner : ∀ z ∈ v'.free ++ v'.allocated, F' z 1 = v.base)
    (frees : ∀ z ∈ v'.free, z ≠ x → z ≠ v.base ∧ z ∈ v.free)
    (room : headerSize + F x 2 ≤ ext x) (room' : headerSize + F y 2 ≤ ext y) :
    PageInv F' ext' v' := by
  have own := taken.own
  refine ⟨base ▸ free, base ▸ allocated, base ▸ owner, fun z inside => ?_, fun z inside => ?_⟩
  · by_cases hit : z = x
    · have header := page.header x (hit ▸ fewer z inside)
      rw [hit]
      omega
    · rw [taken.same z hit]
      exact page.header z (fewer z inside)
  · by_cases hit : z = x
    · have length := taken.length
      rw [hit]
      omega
    · obtain ⟨block, old⟩ := frees z inside hit
      rw [taken.same z hit, taken.lengths z block hit]
      exact page.room z old

end TakenOver

theorem HeapInv.takeOver {h₂ : Heap} {G : Fields} {v' : PageView} {live' : List (Nat × Nat)}
    {x y : Nat} (inv : HeapInv root h F ext live (V ++ v :: W)) (held : h₂.held = h.held)
    (rep : Rep h₂ G ext (starts root (V ++ v :: W))) (rel : Relinked v F G)
    (one : x ∈ v.free ++ v.allocated) (other : y ∈ v.free ++ v.allocated)
    (meet : x + headerSize + F x 2 = y) (room : headerSize + F x 2 ≤ ext x)
    (room' : headerSize + F y 2 ≤ ext y) (once : v'.starts.Nodup) (base : v'.base = v.base)
    (blocks : ∀ z ∈ v'.free ++ v'.allocated, z ∈ v.free ++ v.allocated ∧ z ≠ y)
    (free : Hung 0 0 G v.base 1 v'.free 0) (allocated : Hung 0 0 G v.base 2 v'.allocated 0)
    (frees : ∀ z ∈ v'.free, z ≠ x → z ∈ v.free) (left : x ∉ v'.allocated)
    (placed : ∀ l ∈ live', LiveIn F ext v' l ∨ ∃ u ∈ V ++ W, LiveIn F ext u l)
    (distinct : (live'.map Prod.fst).Nodup) :
    ∃ h₃ F' ext', h₂.store (x + 16) ((G x 2 + (G y 2 + headerSize)) % 2 ^ 64) = some h₃ ∧
      HeapInv root h₃ F' ext' live' (V ++ v' :: W) ∧ TakenOver v F F' ext ext' x y := by
  have eight : headerSize = 24 := rfl
  have here : v ∈ V ++ v :: W := by simp
  have page := inv.pages v here
  have there : x ∈ v.starts := List.mem_cons_of_mem _ one
  have there' : y ∈ v.starts := List.mem_cons_of_mem _ other
  have mem : x ∈ starts root (V ++ v :: W) := mem_starts here there
  have mem' : y ∈ starts root (V ++ v :: W) := mem_starts here there'
  -- nothing lies between the two, so they meet in what they own as well
  have touch : x + ext x = y := by
    rcases inv.rep.apart.off mem mem' (by omega) with below | above <;> omega
  have bound := rep.bound mem'
  have fits : (G x 2 + (G y 2 + headerSize)) % 2 ^ 64 = F x 2 + (F y 2 + headerSize) := by
    rw [rel.kept x one 2 (by decide), rel.kept y other 2 (by decide)]
    exact Nat.mod_eq_of_lt (by omega)
  obtain ⟨h₃, eq, kept₃, rep₃⟩ := rep.store_third mem (page.header x there)
    (w := F x 2 + (F y 2 + headerSize)) (by omega)
  have held₃ := kept₃.held
  have home : ∃ r ∈ h₃.held, r.1 ≤ x ∧ y + ext y ≤ r.1 + r.2 := by
    obtain ⟨bytes, range, place⟩ := inv.homes v here
    exact ⟨(v.base, bytes), by rw [held₃, held]; exact range, (place x there).1, (place y there').2⟩
  obtain ⟨ext', rep', own', same'⟩ := rep₃.join mem mem' (page.header x there) touch home
  have fewer : ∀ z ∈ v'.starts, z ∈ v.starts ∧ z ≠ y := by
    intro z inside
    rcases List.mem_cons.mp inside with rfl | inside
    · rw [base]
      exact ⟨List.mem_cons_self, (base_ne_block (view_nodup inv.rep.nodup here) other).symm⟩
    · exact ⟨List.mem_cons_of_mem _ (blocks z inside).1, (blocks z inside).2⟩
  have ne : v.base ≠ x := (base_ne_block (view_nodup inv.rep.nodup here) one).symm
  have whole : (v'.starts ++ starts root (V ++ W)).Nodup := by
    refine List.nodup_append.mpr ⟨once, ?_, fun z inside u rest same => ?_⟩
    · exact (List.nodup_append.mp ((starts_perm root V W v).nodup_iff.mp inv.rep.nodup)).2.1
    · exact rest_out inv.rep.nodup rest (same ▸ (fewer z inside).1)
  have taken : TakenOver v F (store G x 2 (F x 2 + (F y 2 + headerSize))) ext ext' x y := by
    refine ⟨store_same .., fun z block ne => ?_, own', same'⟩
    rw [store_other_frame ne, rel.length block]
  have owner : ∀ z ∈ v'.free ++ v'.allocated,
      store G x 2 (F x 2 + (F y 2 + headerSize)) z 1 = v.base := by
    intro z inside
    have old := (blocks z inside).1
    rw [store_other fun hit => absurd hit.2 (by decide), rel.kept z old 1 (by decide)]
    exact page.owner z old
  have page' := taken.page page base (fun z inside => (fewer z inside).1) (hung_length ne free)
    (hung_length ne allocated) owner
    (fun z inside hit => ⟨base_ne_block (view_nodup inv.rep.nodup here)
      (List.mem_append_left _ (frees z inside hit)), frees z inside hit⟩) room room'
  have home' := taken.homed (inv.homes v here) base there there' touch
    fun z inside => (fewer z inside).1
  refine ⟨h₃, _, ext', by rw [fits]; exact eq, inv.replace base (held₃.trans held) home'
    (rep'.restrict whole fun z inside => ?_) (fun z inside => ⟨?_, same' z ?_⟩) ?_ page'
    (fun l inside => ?_) distinct, taken⟩
  · have ne : z ≠ y := by
      rintro rfl
      rcases List.mem_append.mp inside with own | rest
      · exact (fewer z own).2 rfl
      · exact rest_out inv.rep.nodup rest there'
    refine (List.mem_erase_of_ne ne).mpr ((starts_perm root V W v).mem_iff.mpr ?_)
    exact List.mem_append.mpr ((List.mem_append.mp inside).imp (fun own => (fewer z own).1) id)
  · have away := rest_out inv.rep.nodup inside
    have ne : z ≠ x := fun same => away (same ▸ there)
    rw [store_other_frame ne, rel.out z away]
  · exact fun same => rest_out inv.rep.nodup inside (same ▸ there)
  · rw [store_other fun hit => ne hit.1, rel.next]
  · refine (placed l inside).imp (fun live => live.congr fun z own => ?_) id
    have ne : z ≠ x := fun same => left (same ▸ own)
    rw [store_other fun hit => ne hit.1,
      rel.kept z (blocks z (List.mem_append_right _ own)).1 2 (by decide)]
    exact ⟨rfl, same' z ne⟩

section Unlink

variable {A B : List Nat} {b : Nat}

def unlinked (F : Fields) (v : PageView) (A : List Nat) (b : Nat) : Fields :=
  setLink F (lastLink v.base 2 A) (F b 0)

theorem unlinked_relinked (once : v.starts.Nodup) (split : v.allocated = A ++ b :: B) (F : Fields) :
    Relinked v F (unlinked F v A b) := by
  refine IsLink.relinked once (isLink_last (by decide) fun a inside => ?_) F (F b 0)
  rw [split]
  simp [inside]

theorem free_unlink (inv : HeapInv root h F ext live (V ++ v :: W))
    (split : v.allocated = A ++ b :: B) : ∃ h₁, h₁.held = h.held ∧
      Rep h₁ (unlinked F v A b) ext (starts root (V ++ v :: W)) ∧
      Hung 0 0 (unlinked F v A b) v.base 2 (A ++ B) 0 ∧
      Hung 0 0 (unlinked F v A b) v.base 1 v.free 0 ∧
      freeBlock (b + headerSize) h =
        (h₁.giveBack b (cellAddr (lastLink v.base 2 A)) (v.base + 8) walkBound).bind fun h =>
          (h.load (v.base + 16)).bind fun a => some (v.base, a, h) := by
  have here : v ∈ V ++ v :: W := by simp
  have once := view_nodup inv.rep.nodup here
  have page := inv.pages v here
  have sub : ∀ x ∈ v.starts, x ∈ starts root (V ++ v :: W) := fun x inside => mem_starts here inside
  have block : b ∈ v.free ++ v.allocated := by simp [split]
  have there := sub b (List.mem_cons_of_mem _ block)
  have hung := page.allocated
  rw [split] at hung
  have part : (A ++ b :: B).Sublist (v.free ++ v.allocated) := split ▸ List.sublist_append_right ..
  obtain ⟨h₁, walk₁, load₁, eq₁, kept₁, rep₁, alloc₁⟩ := unlink_block once inv.rep sub page.header
    (k := 2) (by decide) hung part
  refine ⟨h₁, kept₁.held, rep₁, alloc₁, ?_, ?_⟩
  · refine (hung_other (by decide) (by decide) (by decide) fun a inside free => ?_).mpr page.free
    refine (List.nodup_append.mp (List.nodup_cons.mp once).2).2.2 a free a ?_ rfl
    rw [split]
    exact List.mem_append_left _ inside
  · have walk : h.cellOf b (v.base + 16) walkBound = some (cellAddr (lastLink v.base 2 A)) := walk₁
    simp only [freeBlock, Nat.add_sub_cancel, inv.rep.load_second there
      (page.header b (List.mem_cons_of_mem _ block)), page.owner b block, walk, load₁, eq₁,
      Option.bind_eq_bind, Option.bind_some]

def remaining (live : List (Nat × Nat)) (b : Nat) : List (Nat × Nat) :=
  live.filter fun l => l.1 ≠ b + headerSize

theorem HeapInv.remaining_once (inv : HeapInv root h F ext live views) (b : Nat) :
    ((remaining live b).map Prod.fst).Nodup :=
  (List.filter_sublist.map Prod.fst).nodup inv.once

theorem HeapInv.remaining_placed (inv : HeapInv root h F ext live (V ++ v :: W))
    (split : v.allocated = A ++ b :: B) {l : Nat × Nat} (inside : l ∈ remaining live b) :
    LiveIn F ext { v with allocated := A ++ B } l ∨ ∃ u ∈ V ++ W, LiveIn F ext u l := by
  obtain ⟨inside, ne⟩ := List.mem_filter.mp inside
  refine (inv.placed_cases inside).imp ?_ id
  rintro ⟨x, there, ptr, place⟩
  refine ⟨x, ?_, ptr, place⟩
  rw [split] at there
  simp only [List.mem_append, List.mem_cons] at there ⊢
  rcases there with left | rfl | right
  · exact .inl left
  · simp [ptr] at ne
  · exact .inr right

theorem unlink_perm (split : v.allocated = A ++ b :: B) :
    v.starts.Perm (b :: PageView.starts { v with allocated := A ++ B }) := by
  simp only [PageView.starts, split]
  refine .trans (.cons _ ?_) (.swap ..)
  rw [← List.append_assoc, ← List.append_assoc]
  exact List.perm_middle

theorem later_starts {Q R : List Nat} {r w : Nat} (once : v.starts.Nodup)
    (list : v.free = (Q ++ [r]) ++ w :: R) (split : v.allocated = A ++ [b]) :
    ∃ S : List Nat, S.Sublist v.starts ∧
      S.Perm (PageView.starts { v with free := Q ++ [b], allocated := A }) ∧ w ∉ S := by
  obtain ⟨out, blocks⟩ := List.nodup_cons.mp once
  obtain ⟨frees, _, lists⟩ := List.nodup_append.mp blocks
  have member : w ∈ v.free := by simp [list]
  refine ⟨v.base :: (Q ++ v.allocated), ?_, ?_, fun inside => ?_⟩
  · refine List.Sublist.cons_cons _ (List.Sublist.append ?_ (List.Sublist.refl _))
    rw [list, List.append_assoc]
    exact List.sublist_append_left ..
  · refine .cons _ ?_
    rw [split, List.append_assoc]
    exact List.perm_append_comm.append_left _
  · rcases List.mem_cons.mp inside with base | inside
    · exact out (base ▸ List.mem_append_left _ member)
    · rcases List.mem_append.mp inside with left | right
      · rw [list] at frees
        exact (List.nodup_append.mp frees).2.2 w (by simp [left]) w List.mem_cons_self rfl
      · exact lists w member w right rfl

section Cases

variable {h₁ : Heap} {p : Nat} (inv : HeapInv root h F ext live (V ++ v :: W))
  (split : v.allocated = A ++ b :: B) (own : headerSize + F b 2 ≤ ext b)
  (held : h₁.held = h.held) (rep : Rep h₁ (unlinked F v A b) ext (starts root (V ++ v :: W)))
  (allocated : Hung 0 0 (unlinked F v A b) v.base 2 (A ++ B) 0)
  (free : Hung 0 0 (unlinked F v A b) v.base 1 v.free 0)
include inv split

theorem unlinked_length : ∀ x ∈ v.free ++ v.allocated, unlinked F v A b x 2 = F x 2 := by
  have once := view_nodup inv.rep.nodup (v := v) (by simp)
  exact fun x inside => (unlinked_relinked once split F).kept x inside 2 (by decide)

include own in
theorem sized_block : Sized (unlinked F v A b) ext (starts root (V ++ v :: W)) b := by
  have here : v ∈ V ++ v :: W := by simp
  have block : b ∈ v.allocated := by simp [split]
  have block' : b ∈ v.free ++ v.allocated := List.mem_append_right _ block
  refine ⟨mem_starts here (List.mem_cons_of_mem _ block'),
    seg_ne (inv.pages v here).allocated b block,
    ?_⟩
  rw [unlinked_length inv split b block']
  exact own

theorem sized_free : ∀ x ∈ v.free, Sized (unlinked F v A b) ext (starts root (V ++ v :: W)) x := by
  have here : v ∈ V ++ v :: W := by simp
  have page := inv.pages v here
  intro x inside
  have block : x ∈ v.free ++ v.allocated := List.mem_append_left _ inside
  refine ⟨mem_starts here (List.mem_cons_of_mem _ block), seg_ne page.free x inside, ?_⟩
  rw [unlinked_length inv split x block]
  exact page.room x inside

theorem unlinked_meets {x : Nat} (inside : x ∈ v.free) :
    Meets (unlinked F v A b) b x ↔ Meets F b x := by
  have length := unlinked_length inv split
  rw [Meets, Meets, length x (List.mem_append_left _ inside), length b (by simp [split])]

include own rep free in
theorem walk_to {Q R : List Nat} (list : v.free = Q ++ R) (off : ∀ y ∈ Q, ¬ Meets F b y) :
    ∃ n, h₁.giveBack b p (v.base + 8) walkBound =
      h₁.giveBack b (parentOf p v.base 1 Q) (cellAddr (lastLink v.base 1 Q)) (n + 1) := by
  have here : v ∈ V ++ v :: W := by simp
  have sized := sized_free inv split
  have left : ∀ y ∈ Q, y ∈ v.free := fun y inside => list ▸ List.mem_append_left R inside
  have once : Q.Nodup := by
    have frees := (List.nodup_append.mp (List.nodup_cons.mp (view_nodup inv.rep.nodup here)).2).1
    exact (List.nodup_append.mp (list ▸ frees)).1
  have short := rep.length_lt once fun y inside => (sized y (left y inside)).mem
  obtain ⟨n, bound⟩ := Nat.exists_eq_add_of_lt short
  refine ⟨n, ?_⟩
  rw [bound, Nat.add_assoc, Nat.add_comm Q.length]
  exact rep.giveBack_skip (k := 1) (sized_block inv split own) (list ▸ free)
    (mem_starts here List.mem_cons_self)
    (Nat.le_trans (by decide) ((inv.pages v here).header v.base List.mem_cons_self))
    (fun y inside => sized y (left y inside))
    fun y inside meets => off y inside ((unlinked_meets inv split (left y inside)).mp meets)

theorem block_leads {Q : List Nat} (sub : ∀ q ∈ Q, q ∈ v.free) (u : Nat) :
    Hung 0 0 (setLink (unlinked F v A b) (lastLink v.base 1 Q) u) b 0 B 0 := by
  have here : v ∈ V ++ v :: W := by simp
  obtain ⟨_, allocs, lists⟩ := List.nodup_append.mp
    (List.nodup_cons.mp (view_nodup inv.rep.nodup here)).2
  have hung := (inv.pages v here).allocated
  rw [split] at hung allocs
  have same : ∀ y ∈ b :: B, setLink (unlinked F v A b) (lastLink v.base 1 Q) u y 0 = F y 0 := by
    intro y inside
    have block : y ∈ v.allocated := split ▸ List.mem_append_right A inside
    rw [setLink, store_other (lastCell_ne v.base (by decide) fun there =>
      lists y (sub y there) y block rfl)]
    exact store_other (lastCell_ne v.base (by decide) fun there =>
      (List.nodup_append.mp allocs).2.2 y there y inside rfl)
  refine (hung_congr (same b List.mem_cons_self) fun y inside => ?_).mpr (hung_append.mp hung).2.2
  exact same y (List.mem_cons_of_mem b inside)

include free in
theorem free_onto {Q R : List Nat} (list : v.free = Q ++ R) :
    Hung 0 0 (setLink (unlinked F v A b) (lastLink v.base 1 Q) b) v.base 1 (Q ++ b :: B) 0 := by
  have here : v ∈ V ++ v :: W := by simp
  have frees := (List.nodup_append.mp (List.nodup_cons.mp (view_nodup inv.rep.nodup here)).2).1
  rw [list] at free frees
  obtain ⟨q, head, _⟩ := seg_append.mp free
  have block : b ∈ v.allocated := by simp [split]
  refine hung_append.mpr ⟨hung_last head (List.nodup_append.mp frees).1 (.inr (by decide)),
    seg_ne (inv.pages v here).allocated b block, block_leads inv split (fun q inside => ?_) b⟩
  rw [list]
  exact List.mem_append_left R inside

include allocated in
theorem allocated_onto {Q : List Nat} (sub : ∀ q ∈ Q, q ∈ v.free) (u : Nat) :
    Hung 0 0 (setLink (unlinked F v A b) (lastLink v.base 1 Q) u) v.base 2 (A ++ B) 0 := by
  have here : v ∈ V ++ v :: W := by simp
  have lists := (List.nodup_append.mp (List.nodup_cons.mp (view_nodup inv.rep.nodup here)).2).2.2
  refine (hung_other (by decide) (by decide) (by decide) fun a inside there => ?_).mpr allocated
  refine lists a (sub a inside) a ?_ rfl
  rw [split]
  simp only [List.mem_append, List.mem_cons] at there ⊢
  exact there.imp id Or.inr

include own rep free in
theorem giveBack_append_run (off : ∀ y ∈ v.free, ¬ Meets F b y) :
    ∃ h', h₁.giveBack b p (v.base + 8) walkBound = some h' ∧ h'.held = h₁.held ∧
      Rep h' (setLink (unlinked F v A b) (lastLink v.base 1 v.free) b) ext
        (starts root (V ++ v :: W)) := by
  have here : v ∈ V ++ v :: W := by simp
  have page := inv.pages v here
  have sub : ∀ x ∈ v.starts, x ∈ starts root (V ++ v :: W) := fun x inside => mem_starts here inside
  have sized := sized_block inv split own
  have link : IsLink v (lastLink v.base 1 v.free) :=
    isLink_last (by decide) fun a inside => List.mem_append_left _ inside
  obtain ⟨n, walk⟩ := walk_to inv split own rep free (p := p) (List.append_nil _).symm off
  have header := page.header _ link.mem
  have room : 8 * (lastLink v.base 1 v.free).2.val + 8 ≤ ext (lastLink v.base 1 v.free).1 := by
    have := (lastLink v.base 1 v.free).2.isLt
    simp only [headerSize] at header
    omega
  obtain ⟨h', eq, kept', rep'⟩ := store_link rep sub page.header link
    (u := b) (by have := rep.bound sized.mem; have := rep.word b sized.mem; omega)
  refine ⟨h', ?_, kept'.held, rep'⟩
  rw [walk]
  exact (rep.giveBack_append (sub _ link.mem) room (hung_at free)).trans eq

include own held rep allocated free in
theorem giveBack_append_step (last : B = []) (off : ∀ y ∈ v.free, ¬ Meets F b y) :
    ∃ h' F', h₁.giveBack b p (v.base + 8) walkBound = some h' ∧
      HeapInv root h' F' ext (remaining live b)
        (V ++ { v with free := v.free ++ [b], allocated := A } :: W) ∧ Relinked v F F' := by
  subst last
  have here : v ∈ V ++ v :: W := by simp
  have once := view_nodup inv.rep.nodup here
  have page := inv.pages v here
  have link : IsLink v (lastLink v.base 1 v.free) :=
    isLink_last (by decide) fun a inside => List.mem_append_left _ inside
  obtain ⟨h', eq, held', rep'⟩ := giveBack_append_run inv split own rep free (p := p) off
  have rel := (unlinked_relinked once split F).trans (link.relinked once _ b)
  have alloc' := allocated_onto inv split allocated (fun q inside => inside) b
  rw [List.append_nil] at alloc'
  refine ⟨h', _, eq, inv.relink (held'.trans held) rep' rel rfl ?_
    (free_onto inv split free (List.append_nil _).symm) alloc' ?_ ?_ (inv.remaining_once b), rel⟩
  · refine .cons _ ?_
    rw [split, List.append_assoc]
    exact List.perm_append_comm.append_left _
  · intro x inside
    rcases List.mem_append.mp inside with inside | last
    · exact page.room x inside
    · obtain rfl := List.mem_singleton.mp last
      exact own
  · intro l inside
    refine (inv.remaining_placed split inside).imp ?_ id
    rintro ⟨x, there, place⟩
    exact ⟨x, by simpa using there, place⟩

include own held rep allocated free in
theorem giveBack_below_step {Q R : List Nat} {w : Nat} (list : v.free = Q ++ w :: R)
    (off : ∀ y ∈ Q, ¬ Meets F b y) (meet : w + headerSize + F w 2 = b) :
    ∃ h' F' ext', h₁.giveBack b p (v.base + 8) walkBound = some h' ∧
      HeapInv root h' F' ext' (remaining live b) (V ++ { v with allocated := A ++ B } :: W) ∧
      TakenOver v F F' ext ext' w b := by
  have here : v ∈ V ++ v :: W := by simp
  have once := view_nodup inv.rep.nodup here
  have page := inv.pages v here
  have member : w ∈ v.free := by simp [list]
  have block : b ∈ v.allocated := by simp [split]
  have apart := (List.nodup_append.mp (List.nodup_cons.mp once).2).2.2
  have sized := sized_block inv split own
  have small := sized_free inv split w member
  have link : IsLink v (lastLink v.base 1 Q) := isLink_last (by decide) fun a inside => by
    simp [list, inside]
  have room : 8 * (lastLink v.base 1 Q).2.val + 8 ≤ ext (lastLink v.base 1 Q).1 := by
    have header := page.header _ link.mem
    have := (lastLink v.base 1 Q).2.isLt
    simp only [headerSize] at header
    omega
  have free_q := free
  rw [list] at free_q
  obtain ⟨n, walk⟩ := walk_to inv split own rep free (p := p) list off
  have perm := unlink_perm split
  have fewer := List.nodup_cons.mp (perm.nodup_iff.mp once)
  have old : ∀ z ∈ A ++ B, z ∈ v.allocated := by
    intro z inside
    rw [split]
    simp only [List.mem_append, List.mem_cons] at inside ⊢
    tauto
  have blocks : ∀ z ∈ v.free ++ (A ++ B), z ∈ v.free ++ v.allocated ∧ z ≠ b := fun z inside =>
    ⟨List.mem_append.mpr ((List.mem_append.mp inside).imp id (old z)),
      fun same => fewer.1 (same ▸ List.mem_cons_of_mem _ inside)⟩
  obtain ⟨h', F', ext', eq, inv'⟩ := inv.takeOver held rep (unlinked_relinked once split F)
    (List.mem_append_left _ member) (List.mem_append_right _ block) meet (page.room w member) own
    fewer.2 rfl blocks free allocated (fun z inside _ => inside)
    (fun inside => apart w member w (old w inside) rfl)
    (fun l inside => inv.remaining_placed split inside) (inv.remaining_once b)
  refine ⟨h', F', ext', ?_, inv'⟩
  rw [walk]
  refine (rep.giveBack_below sized small (mem_starts here link.mem) room
    (hung_at (hung_append.mp free_q).1) ?_).trans eq
  rw [unlinked_length inv split w (List.mem_append_left _ member)]
  exact meet

include own rep free in
theorem giveBack_above_run {R : List Nat} {w : Nat} (list : v.free = w :: R)
    (apart : w + headerSize + F w 2 ≠ b) (meet : b + headerSize + F b 2 = w) :
    ∃ h', h₁.giveBack b (cellAddr (lastLink v.base 2 A)) (v.base + 8) walkBound = some h' ∧
      h'.held = h₁.held ∧ Rep h' (store F b 2 ((F b 2 + (F w 2 + headerSize)) % 2 ^ 64)) ext
        (starts root (V ++ v :: W)) := by
  have here : v ∈ V ++ v :: W := by simp
  have page := inv.pages v here
  have sub : ∀ x ∈ v.starts, x ∈ starts root (V ++ v :: W) := fun x inside => mem_starts here inside
  have member : w ∈ v.free := by simp [list]
  have block : b ∈ v.free ++ v.allocated := by simp [split]
  have sized := sized_block inv split own
  have small := sized_free inv split w member
  have length := unlinked_length inv split
  have base := sub v.base List.mem_cons_self
  have header := page.header v.base List.mem_cons_self
  have link : IsLink v (lastLink v.base 2 A) := isLink_last (by decide) fun a inside => by
    simp [split, inside]
  obtain ⟨n, walk⟩ := walk_to inv split own rep free (Q := []) (p := cellAddr (lastLink v.base 2 A))
    (R := v.free) rfl (by simp)
  obtain ⟨h₂, eq₂, kept₂, rep₂⟩ := store_link rep sub page.header link
    (u := b) (by have := rep.bound sized.mem; have := rep.word b sized.mem; omega)
  have back : setLink (unlinked F v A b) (lastLink v.base 2 A) b = F := by
    have hung := page.allocated
    rw [split] at hung
    have cell := hung_at (hung_append.mp hung).1
    rw [unlinked, setLink, setLink, store_store]
    conv_lhs => rw [← cell]
    exact store_self ..
  rw [back] at rep₂
  obtain ⟨h₃, eq₃, kept₃, rep₃⟩ := rep₂.store_third sized.mem sized.header
    (w := (F b 2 + (F w 2 + headerSize)) % 2 ^ 64) (Nat.mod_lt _ (by decide))
  have first : F v.base 1 = w := by
    have hung := page.free
    rw [list] at hung
    exact hung.1
  refine ⟨h₃, ?_, kept₃.held.trans kept₂.held, rep₃⟩
  rw [walk]
  have load₁ : h₂.load (v.base + 8 * (1 : Fin 3)) = some (F v.base 1) :=
    rep₂.load_second base header
  refine (rep.giveBack_above sized small base (Nat.le_trans (by decide) header) (k := 1) ?_ ?_
    ?_).trans ?_
  · rw [list] at free
    exact free.1
  · rw [length w (List.mem_append_left _ member)]
    exact apart
  · rw [length b block]
    exact meet
  · simp only [parentOf, eq₂, load₁, first, rep₂.load_third small.mem small.header,
      rep₂.load_third sized.mem sized.header, Option.bind_some]
    exact eq₃

include own held rep free in
theorem giveBack_above_step {R : List Nat} {w : Nat} (list : v.free = w :: R)
    (apart : w + headerSize + F w 2 ≠ b) (meet : b + headerSize + F b 2 = w) :
    ∃ h' F', h₁.giveBack b (cellAddr (lastLink v.base 2 A)) (v.base + 8) walkBound = some h' ∧
      HeapInv root h' F' ext (remaining live b) (V ++ v :: W) := by
  have here : v ∈ V ++ v :: W := by simp
  have once := view_nodup inv.rep.nodup here
  have page := inv.pages v here
  have block : b ∈ v.allocated := by simp [split]
  have block' : b ∈ v.free ++ v.allocated := List.mem_append_right _ block
  obtain ⟨h₃, eq, held₃, rep₃⟩ := giveBack_above_run inv split own rep free list apart meet
  have out : b ∉ v.free := fun inside =>
    (List.nodup_append.mp (List.nodup_cons.mp once).2).2.2 b inside b block rfl
  have ne : v.base ≠ b := (base_ne_block once block').symm
  refine ⟨h₃, _, eq, inv.replace rfl (held₃.trans held) (inv.homes v here)
    (rep₃.perm (starts_perm root V W v)) (fun x inside => ⟨?_, rfl⟩) ?_
    ⟨?_, ?_, fun x inside => ?_, page.header, fun x inside => ?_⟩ (fun l inside => ?_)
    (inv.remaining_once b)⟩
  · exact store_other_frame fun same => rest_out inv.rep.nodup inside
      (same ▸ List.mem_cons_of_mem _ block')
  · exact store_other fun hit => ne hit.1
  · exact hung_length ne page.free
  · exact hung_length ne page.allocated
  · rw [store_other fun hit => absurd hit.2 (by decide)]
    exact page.owner x inside
  · have other : x ≠ b := fun same => out (same ▸ inside)
    rw [store_other fun hit => other hit.1]
    exact page.room x inside
  · refine (inv.remaining_placed split inside).imp ?_ id
    rintro ⟨x, there, place⟩
    have nodup : (b :: (A ++ B)).Nodup := by
      have allocs := (List.nodup_append.mp (List.nodup_cons.mp once).2).2.1
      exact List.nodup_middle.mp (split ▸ allocs)
    refine ⟨x, ?_, ?_⟩
    · rw [split]
      simp only [List.mem_append, List.mem_cons] at there ⊢
      tauto
    · have other : x ≠ b := fun same => (List.nodup_cons.mp nodup).1 (same ▸ there)
      rw [store_other fun hit => other hit.1]
      exact place

include own rep free in
theorem giveBack_later_run {Q R : List Nat} {r w : Nat} (list : v.free = (Q ++ [r]) ++ w :: R)
    (off : ∀ y ∈ Q ++ [r], ¬ Meets F b y) (apart : w + headerSize + F w 2 ≠ b)
    (meet : b + headerSize + F b 2 = w) :
    ∃ h₂, Rep h₂ (setLink (unlinked F v A b) (lastLink v.base 1 Q) b) ext
        (starts root (V ++ v :: W)) ∧ h₂.held = h₁.held ∧
      h₁.giveBack b p (v.base + 8) walkBound = h₂.store (b + 16)
        ((setLink (unlinked F v A b) (lastLink v.base 1 Q) b b 2 +
          (setLink (unlinked F v A b) (lastLink v.base 1 Q) b w 2 + headerSize)) % 2 ^ 64) := by
  have here : v ∈ V ++ v :: W := by simp
  have once := view_nodup inv.rep.nodup here
  have page := inv.pages v here
  have sub : ∀ x ∈ v.starts, x ∈ starts root (V ++ v :: W) := fun x inside => mem_starts here inside
  have member : w ∈ v.free := by simp [list]
  have start_r : r ∈ v.starts := by simp [PageView.starts, list]
  have block : b ∈ v.free ++ v.allocated := by simp [split]
  have frees := (List.nodup_append.mp (List.nodup_cons.mp once).2).1
  have sized := sized_block inv split own
  have small := sized_free inv split w member
  have length := unlinked_length inv split
  have link : IsLink v (lastLink v.base 1 Q) := isLink_last (by decide) fun a inside => by
    simp [list, inside]
  obtain ⟨n, walk⟩ := walk_to inv split own rep free (p := p) list off
  obtain ⟨h₂, eq₂, kept₂, rep₂⟩ := store_link rep sub page.header link
    (u := b) (by have := rep.bound sized.mem; have := rep.word b sized.mem; omega)
  -- the cell before `w` is that of `r`, and it still leads to `w`
  have cell : lastLink v.base 1 (Q ++ [r]) = (r, 0) := lastCell_append
  have qr := (List.nodup_append.mp (list ▸ frees)).1
  have free_l := free
  rw [list] at free_l
  have at_r : unlinked F v A b r 0 = w := (hung_append.mp (hung_append.mp free_l).1).2.2
  have other_r : setLink (unlinked F v A b) (lastLink v.base 1 Q) b r 0 = w := by
    rw [setLink, store_other, at_r]
    refine lastCell_ne v.base (by decide) fun inside => ?_
    exact (List.nodup_append.mp qr).2.2 r inside r (by simp) rfl
  refine ⟨h₂, rep₂, kept₂.held, ?_⟩
  rw [walk, cell, parentOf_append]
  have load₂ : h₂.load (r + 8 * (0 : Fin 3)) = some w := by
    rw [← other_r]
    exact rep₂.load_first (sub r start_r)
  have room : 8 * (0 : Fin 3).val + 8 ≤ ext r :=
    Nat.le_trans (by decide) (page.header r start_r)
  refine (rep.giveBack_above sized small (sub r start_r) room at_r ?_ ?_).trans ?_
  · rw [length w (List.mem_append_left _ member)]
    exact apart
  · rw [length b block]
    exact meet
  · simp only [eq₂, load₂, rep₂.load_third small.mem small.header,
      rep₂.load_third sized.mem sized.header, Option.bind_some]

include own held rep allocated free in
theorem giveBack_later_step {Q R : List Nat} {r w : Nat} (list : v.free = (Q ++ [r]) ++ w :: R)
    (last : B = []) (off : ∀ y ∈ Q ++ [r], ¬ Meets F b y) (apart : w + headerSize + F w 2 ≠ b)
    (meet : b + headerSize + F b 2 = w) :
    ∃ h' F' ext', h₁.giveBack b p (v.base + 8) walkBound = some h' ∧
      HeapInv root h' F' ext' (remaining live b)
        (V ++ { v with free := Q ++ [b], allocated := A } :: W) := by
  subst last
  have here : v ∈ V ++ v :: W := by simp
  have once := view_nodup inv.rep.nodup here
  have page := inv.pages v here
  have member : w ∈ v.free := by simp [list]
  have block : b ∈ v.allocated := by simp [split]
  have allocs := (List.nodup_append.mp (List.nodup_cons.mp once).2).2.1
  have left : ∀ q ∈ Q, q ∈ v.free := fun q inside => by simp [list, inside]
  have link : IsLink v (lastLink v.base 1 Q) := isLink_last (by decide) fun a inside =>
    List.mem_append_left _ (left a inside)
  obtain ⟨h₂, rep₂, held₂, run⟩ := giveBack_later_run inv split own rep free (p := p) list off apart
    meet
  have free' : Hung 0 0 (setLink (unlinked F v A b) (lastLink v.base 1 Q) b) v.base 1
      (Q ++ [b]) 0 :=
    free_onto inv split free (R := r :: w :: R) (by simp [list])
  have allocated' := allocated_onto inv split allocated left b
  rw [List.append_nil] at allocated'
  obtain ⟨S, part, perm, gone⟩ := later_starts once list split
  have old : b ∉ A := fun inside => (List.nodup_append.mp (split ▸ allocs)).2.2 b inside b
    List.mem_cons_self rfl
  have blocks : ∀ z ∈ (Q ++ [b]) ++ A, z ∈ v.free ++ v.allocated ∧ z ≠ w := by
    refine fun z inside => ⟨?_, fun same =>
      gone (perm.mem_iff.mpr (same ▸ List.mem_cons_of_mem _ inside))⟩
    rw [list, split]
    simp only [List.mem_append, List.mem_cons, List.not_mem_nil, or_false] at inside ⊢
    tauto
  have frees' : ∀ z ∈ Q ++ [b], z ≠ b → z ∈ v.free := by
    intro z inside ne
    rcases List.mem_append.mp inside with inside | last
    · exact left z inside
    · exact absurd (List.mem_singleton.mp last) ne
  have placed : ∀ l ∈ remaining live b,
      LiveIn F ext { v with free := Q ++ [b], allocated := A } l ∨
        ∃ u ∈ V ++ W, LiveIn F ext u l := by
    intro l inside
    refine (inv.remaining_placed split inside).imp ?_ id
    rintro ⟨z, there, place⟩
    exact ⟨z, by simpa using there, place⟩
  obtain ⟨h', F', ext', eq, inv', _⟩ := inv.takeOver (held₂.trans held) rep₂
    ((unlinked_relinked once split F).trans (link.relinked once _ b))
    (List.mem_append_right _ block) (List.mem_append_left _ member) meet own (page.room w member)
    (perm.nodup_iff.mp (part.nodup once)) rfl blocks free' allocated' frees' old placed
    (inv.remaining_once b)
  exact ⟨h', F', ext', run.trans eq, inv'⟩

end Cases

end Unlink

/-- When the loop of free does no harm: the page keeps another block on its allocated list,
and the block is the last one of that list, unless its neighbour is found before it or is
the first free block. -/
def ReleaseClear (F : Fields) (v : PageView) (b : Nat) : Prop :=
  match v.free.find? fun x => Meets F b x with
  | none => v.allocated.getLast? = some b ∧ 1 < v.allocated.length
  | some x =>
    if x + headerSize + F x 2 = b then 1 < v.allocated.length
    else v.free.head? = some x ∨ v.allocated.getLast? = some b ∧ 1 < v.allocated.length

theorem HeapInv.keeps_page (inv : HeapInv root h F ext live (V ++ v :: W))
    (some : v.allocated ≠ []) : ∃ a, a ≠ 0 ∧
      ((h.load (v.base + 16)).bind fun a => Option.some (v.base, a, h)) =
        Option.some (v.base, a, h) := by
  have here : v ∈ V ++ v :: W := by simp
  have page := inv.pages v here
  refine ⟨F v.base 2, ?_, ?_⟩
  · cases list : v.allocated with
    | nil => exact absurd list some
    | cons b B =>
      have hung := page.allocated
      rw [list] at hung
      rw [hung.1]
      exact hung.2.1
  · rw [inv.rep.load_third (mem_starts here List.mem_cons_self) (page.header _ List.mem_cons_self),
      Option.bind_some]

theorem freeBlock_step (inv : HeapInv root h F ext live views) {l : Nat × Nat} (used : l ∈ live)
    (every : ∀ v ∈ views, ∀ b ∈ v.allocated, l.1 = b + headerSize → ReleaseClear F v b) :
    ∃ pg a h' F' ext' views', freeBlock l.1 h = some (pg, a, h') ∧ a ≠ 0 ∧
      HeapInv root h' F' ext' (live.filter fun k => k.1 ≠ l.1) views' := by
  obtain ⟨v, inside, b, block, ptr, own, _⟩ := inv.placed l used
  have clear := every v inside b block ptr
  obtain ⟨V, W, rfl⟩ := List.append_of_mem inside
  obtain ⟨A, B, split⟩ := List.append_of_mem block
  obtain ⟨h₁, held, rep, allocated, free, run⟩ := free_unlink inv split
  rw [ptr, run]
  have few : 1 < v.allocated.length → A ++ B ≠ [] := by
    intro more none
    have := congrArg List.length split
    have := congrArg List.length none
    simp only [List.length_append, List.length_cons, List.length_nil] at *
    omega
  have ends : v.allocated.getLast? = some b → B = [] := by
    intro last
    rcases List.eq_nil_or_concat' B with rfl | ⟨C, y, rfl⟩
    · rfl
    · have nodup := view_nodup inv.rep.nodup inside
      have allocs := (List.nodup_append.mp (List.nodup_cons.mp nodup).2).2.1
      rw [split, ← List.cons_append, ← List.append_assoc, List.getLast?_append] at last
      obtain rfl : y = b := by simpa using last
      rw [split] at allocs
      simp [List.nodup_append] at allocs
  unfold ReleaseClear at clear
  cases found : v.free.find? fun x => Meets F b x with
  | none =>
    rw [found] at clear
    have off : ∀ y ∈ v.free, ¬ Meets F b y := by simpa using List.find?_eq_none.mp found
    obtain ⟨h', F', eq, inv', _⟩ := giveBack_append_step inv split own held rep allocated free
      (ends clear.1) off
    have some := few clear.2
    rw [ends clear.1, List.append_nil] at some
    obtain ⟨a, more, last⟩ := inv'.keeps_page some
    exact ⟨_, a, h', F', ext, _, by rw [eq]; exact last, more, inv'⟩
  | some w =>
    rw [found] at clear
    obtain ⟨meets, Q, R, list, passed⟩ := List.find?_eq_some_iff_append.mp found
    have off : ∀ y ∈ Q, ¬ Meets F b y := by simpa using passed
    have meets : Meets F b w := by simpa using meets
    by_cases below : w + headerSize + F w 2 = b
    · obtain ⟨h', F', ext', eq, inv', _⟩ := giveBack_below_step inv split own held rep allocated
        free list off below
      obtain ⟨a, more, last⟩ := inv'.keeps_page (few (by simpa [below] using clear))
      exact ⟨_, a, h', F', ext', _, by rw [eq]; exact last, more, inv'⟩
    · have above := meets.resolve_left below
      simp only [if_neg below] at clear
      rcases List.eq_nil_or_concat' Q with rfl | ⟨Q, r, rfl⟩
      · obtain ⟨h', F', eq, inv'⟩ :=
          giveBack_above_step inv split own held rep free list below above
        obtain ⟨a, more, last⟩ := inv'.keeps_page (List.ne_nil_of_mem block)
        exact ⟨_, a, h', F', ext, _, by rw [eq]; exact last, more, inv'⟩
      · have later : v.allocated.getLast? = some b ∧ 1 < v.allocated.length := by
          refine clear.resolve_left fun first => ?_
          -- the first free block was passed, so it is not `w`
          have inside : w ∈ Q ++ [r] := by
            rw [list] at first
            cases Q with
            | nil => simpa using first.symm
            | cons y Q =>
              simp only [List.cons_append, List.head?_cons, Option.some.injEq] at first
              simp [first]
          exact off w inside meets
        obtain ⟨h', F', ext', eq, inv'⟩ := giveBack_later_step inv split own held rep allocated free
          list (ends later.1) off below above
        have some := few later.2
        rw [ends later.1, List.append_nil] at some
        obtain ⟨a, more, last⟩ := inv'.keeps_page some
        exact ⟨_, a, h', F', ext', _, by rw [eq]; exact last, more, inv'⟩

theorem free_step (inv : HeapInv root h F ext live views) {l : Nat × Nat} (used : l ∈ live)
    (every : ∀ v ∈ views, ∀ b ∈ v.allocated, l.1 = b + headerSize → ReleaseClear F v b) :
    ∃ h' F' ext' views', free l.1 h = some h' ∧
      HeapInv root h' F' ext' (live.filter fun k => k.1 ≠ l.1) views' := by
  obtain ⟨pg, a, h', F', ext', views', eq, more, inv'⟩ := freeBlock_step inv used every
  refine ⟨h', F', ext', views', ?_, inv'⟩
  rw [free_eq, eq, Option.map_some, if_neg more]

end Gapxos
