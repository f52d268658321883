import Gapxos.Vmm.Blocks

/-! One call on a memory manager, block by block: a request splits a free block, a release
joins the block to its free neighbours. -/
namespace Gapxos
open SearchTree Tiling

theorem avlMinSize_some {pageCount : Nat} {t : AvlTree} {n : AvlNode}
    (h : avlMinSize pageCount t = some n) :
    n ∈ t.toList ∧ pageCount ≤ n.pageCount ∧ n.allocated = false := by
  induction t with
  | nil => cases h
  | node v i l r left right =>
    rw [avlMinSize] at h
    cases found : avlMinSize pageCount r with
    | some w =>
      rw [found] at h
      cases h
      have := right found
      exact ⟨by simp [this.1], this.2⟩
    | none =>
      simp only [found] at h
      split at h
      · cases h
        exact ⟨by simp, by assumption⟩
      · have := left h
        exact ⟨by simp [this.1], this.2⟩

theorem avlMinSize_none {pageCount : Nat} {t : AvlTree} (h : avlMinSize pageCount t = none) :
    ∀ v ∈ t.toList, v.allocated = false → v.pageCount < pageCount := by
  induction t with
  | nil => simp
  | node w i l r left right =>
    rw [avlMinSize] at h
    cases found : avlMinSize pageCount r with
    | some n => simp [found] at h
    | none =>
      simp only [found] at h
      split at h
      · cases h
      · rename_i used
        intro v inside free
        rw [KeyTree.toList_node, List.mem_append, List.mem_cons] at inside
        rcases inside with inside | rfl | inside
        · exact left h v inside free
        · exact Nat.lt_of_not_le fun le => used ⟨le, free⟩
        · exact right found v inside free

theorem avlBelow_some {addr : Nat} {t : AvlTree} {n : AvlNode} (h : avlBelow addr t = some n) :
    n ∈ t.toList ∧ belowDiff n addr = 0 := by
  induction t with
  | nil => cases h
  | node v i l r left right =>
    rw [avlBelow] at h
    split at h
    · cases h
      exact ⟨by simp, by assumption⟩
    · split at h
      · have := left h
        exact ⟨by simp [this.1], this.2⟩
      · have := right h
        exact ⟨by simp [this.1], this.2⟩

/-- A manager has room for a request. -/
def Room (pageCount : Nat) (t : AvlTree) : Prop :=
  ∃ v ∈ t.toList, v.allocated = false ∧ pageCount ≤ v.pageCount

theorem avlMinSize_room {pageCount : Nat} {t : AvlTree} (room : Room pageCount t) :
    ∃ n, avlMinSize pageCount t = some n := by
  cases found : avlMinSize pageCount t with
  | some n => exact ⟨n, rfl⟩
  | none =>
    obtain ⟨v, inside, free, large⟩ := room
    have := avlMinSize_none found v inside free
    omega

theorem rest_place {lo hi pageCount : Nat} {A B : List AvlNode} {n : AvlNode}
    (tiles : Tiles AvlNode.addr AvlNode.len lo hi (A ++ n :: B)) (fits : hi ≤ 2 ^ 64)
    (pos : 0 < pageCount) (rest : pageCount < n.pageCount) :
    (n.addr + pageCount * 4096) % 2 ^ 64 = n.addr + 4096 * pageCount ∧
      (∀ x ∈ A ++ [n], x.addr < n.addr + 4096 * pageCount) ∧
      ∀ x ∈ B, n.addr + 4096 * pageCount < x.addr := by
  obtain ⟨before, _, after⟩ := tiles_middle.mp tiles
  have len : n.len = 4096 * n.pageCount := rfl
  have last := tiles_le after
  refine ⟨by omega, fun x inside => ?_, fun x inside => ?_⟩
  · rcases List.mem_append.mp inside with inside | inside
    · have := tiles_mem before inside
      omega
    · rw [List.mem_singleton.mp inside]
      omega
  · have := (tiles_mem after inside).1
    omega

section Steps

variable {σ : Type} {src : NodeSource σ} {live : σ → Nat → Prop} {lo hi : Nat}

theorem insertRest_step {st : σ × Phys} {t : AvlTree} (creates : Creates src live st t)
    {A B : List AvlNode} {n : AvlNode} {pageCount : Nat} (nodes : Nodes (live st.1) t)
    (small : top t ≤ 250) (split : t.toList = A ++ n :: B)
    (tiles : Tiles AvlNode.addr AvlNode.len lo hi t.toList) (fits : hi ≤ 2 ^ 64)
    (pos : 0 < pageCount) (large : pageCount ≤ n.pageCount) :
    ∃ t' st' R, insertRest src n pageCount t st = some (t', st') ∧ t'.toList = A ++ n :: R ∧
      Tiles AvlNode.addr AvlNode.len (n.addr + 4096 * pageCount) hi R ∧ blocks R = blocks B ∧
      Nodes (live st'.1) t' := by
  rw [split] at tiles
  obtain ⟨_, _, after⟩ := tiles_middle.mp tiles
  have len : n.len = 4096 * n.pageCount := rfl
  by_cases rest : n.pageCount - pageCount = 0
  · refine ⟨t, st, B, by simp [insertRest, rest], split, ?_, rfl, nodes⟩
    rwa [len, show n.pageCount = pageCount by omega] at after
  · obtain ⟨addr, below, above⟩ := rest_place tiles fits pos (by omega)
    obtain ⟨t', st', ptr, eq, list, nodes'⟩ := insertNode_nodes creates nodes small
      (n.addr + 4096 * pageCount) (n.pageCount - pageCount) (A := A ++ [n]) (by simp [split])
      below above
    have size : 0 < 4096 * (n.pageCount - pageCount) := by omega
    have stop : n.addr + 4096 * pageCount + 4096 * (n.pageCount - pageCount) = n.addr + n.len := by
      omega
    refine ⟨t', st', ⟨ptr, n.addr + 4096 * pageCount, n.pageCount - pageCount, false⟩ :: B, ?_,
      by simpa using list, ⟨rfl, size, ?_⟩, blocks_free rfl _, nodes'⟩
    · simp only [insertRest, ne_eq, rest, not_false_eq_true, if_true, addr]
      exact eq
    · rwa [← stop] at after

theorem allocVirt_step (m : MemoryManager) (st : σ × Phys) (creates : Creates src live st m.tree)
    {pageCount : Nat} (nodes : Nodes (live st.1) m.tree) (small : top m.tree ≤ 250)
    (tiles : Tiles AvlNode.addr AvlNode.len lo hi m.tree.toList) (fits : hi ≤ 2 ^ 64)
    (pos : 0 < pageCount) (room : Room pageCount m.tree) :
    ∃ addr t st', allocVirt src m pageCount st = some (addr, { m with tree := t }, st') ∧
      Nodes (live st'.1) t ∧ Tiles AvlNode.addr AvlNode.len lo hi t.toList ∧
      (blocks t.toList).Perm ((addr, pageCount) :: blocks m.tree.toList) := by
  obtain ⟨n, found⟩ := avlMinSize_room room
  obtain ⟨inside, large, free⟩ := avlMinSize_some found
  obtain ⟨A, B, split⟩ := List.append_of_mem inside
  obtain ⟨t, st', R, eq, list, rest, same, nodes'⟩ :=
    insertRest_step creates nodes small split tiles fits pos large
  have written := write_list list nodes'.ptrs
    fun v => { v with pageCount := pageCount, allocated := true }
  have ne : m.tree ≠ .nil := by
    intro empty
    rw [empty] at inside
    cases inside
  refine ⟨n.addr, writeNode n.ptr (fun v => { v with pageCount, allocated := true }) t, st',
    by simp [allocVirt, ne, found, eq], nodes'.write n.ptr fun _ => rfl, ?_, ?_⟩
  · rw [written, tiles_middle]
    rw [split] at tiles
    exact ⟨(tiles_middle.mp tiles).1, Nat.mul_pos (by decide) pos, rest⟩
  · rw [written, split, blocks_append, blocks_append, blocks_used rfl, blocks_free free, same]
    exact List.perm_middle

/-- Every free block of `vs` begins where a free block of `ws` begins. -/
def FreeStarts (vs ws : List AvlNode) : Prop :=
  ∀ v ∈ vs, v.allocated = false → ∃ w ∈ ws, w.allocated = false ∧ w.addr = v.addr

theorem freeStarts_refl (vs : List AvlNode) : FreeStarts vs vs :=
  fun v inside free => ⟨v, inside, free, rfl⟩

/-- Two free blocks in a row become one; the blocks behind may have moved to other nodes. -/
structure JoinedBlocks (lo hi : Nat) (A : List AvlNode) (p b : AvlNode) (B B' : List AvlNode) :
    Prop where
  stop : p.addr + (p.addPages b.pageCount).len = b.addr + b.len
  tiles : Tiles AvlNode.addr AvlNode.len lo hi (A ++ p.addPages b.pageCount :: B')
  used : blocks (A ++ p.addPages b.pageCount :: B') = blocks (A ++ p :: b :: B)
  starts : FreeStarts (A ++ p.addPages b.pageCount :: B') (A ++ p :: b :: B)

theorem join_blocks {lo hi : Nat} {A B B' : List AvlNode} {p b : AvlNode}
    (tiles : Tiles AvlNode.addr AvlNode.len lo hi (A ++ p :: b :: B)) (fits : hi ≤ 2 ^ 64)
    (fp : p.allocated = false) (fb : b.allocated = false)
    (same : B'.map AvlNode.payload = B.map AvlNode.payload) : JoinedBlocks lo hi A p b B B' := by
  obtain ⟨before, pos, follows, _, after⟩ := tiles_middle.mp tiles
  have count : p.addPages b.pageCount = { p with pageCount := p.pageCount + b.pageCount } := by
    have := tiles_le after
    simp only [AvlNode.len] at this
    rw [AvlNode.addPages, Nat.mod_eq_of_lt (by omega)]
  have len : (p.addPages b.pageCount).len = p.len + b.len := by
    rw [count]
    exact Nat.mul_add ..
  refine ⟨by omega, ?_, ?_, ?_⟩
  · rw [tiles_middle, len, ← Nat.add_assoc]
    exact ⟨before, by omega, (tiles_payload same).mpr after⟩
  · simp only [blocks_append]
    rw [blocks_free fp, blocks_free fb, blocks_free (v := p.addPages b.pageCount) fp,
      blocks_congr same]
  · intro v inside free
    rw [List.mem_append, List.mem_cons] at inside
    rcases inside with inside | rfl | inside
    · exact ⟨v, by simp [inside], free, rfl⟩
    · exact ⟨p, by simp, fp, rfl⟩
    · have moved : v.payload ∈ B.map AvlNode.payload := same ▸ List.mem_map_of_mem inside
      obtain ⟨w, old, eq⟩ := List.mem_map.mp moved
      obtain ⟨addr, _, state⟩ := payload_eq eq
      exact ⟨w, by simp [old], state.trans free, addr⟩

theorem mergeBelow_step (fresh : FreshSource src live) (parentNull : Bool) (st : σ × Phys)
    {t : AvlTree} {A B : List AvlNode} {n : AvlNode} (nodes : Nodes (live st.1) t)
    (small : top t ≤ 250) (split : t.toList = A ++ n :: B)
    (tiles : Tiles AvlNode.addr AvlNode.len lo hi t.toList) (fits : hi ≤ 2 ^ 64)
    (free : n.allocated = false)
    (near : ∀ v ∈ t.toList, v.allocated = false → belowDiff v n.addr = 0 →
      v.addr + v.len = n.addr)
    (ok : (∃ v ∈ t.toList, v.allocated = false ∧ v.addr + v.len = n.addr) →
      removable n.addr t = true) :
    ∃ q t' st' C D, mergeBelow src parentNull n.addr n t st = some (q.ptr, t', st') ∧
      t'.toList = C ++ q :: D ∧ q.allocated = false ∧ q.addr + q.len = n.addr + n.len ∧
      Nodes (live st'.1) t' ∧ top t' ≤ 250 ∧
      Tiles AvlNode.addr AvlNode.len lo hi t'.toList ∧
      blocks t'.toList = blocks t.toList ∧ FreeStarts t'.toList t.toList := by
  cases found : avlBelow n.addr t with
  | none =>
    exact ⟨n, t, st, A, B, by simp [mergeBelow, found], split, free, rfl, nodes, small, tiles, rfl,
      freeStarts_refl _⟩
  | some prev =>
    cases used : prev.allocated with
    | true =>
      exact ⟨n, t, st, A, B, by simp [mergeBelow, found, used], split, free, rfl, nodes, small,
        tiles, rfl, freeStarts_refl _⟩
    | false =>
      obtain ⟨inside, diff⟩ := avlBelow_some found
      have ends := near prev inside used diff
      have sorted := tiles_sorted tiles
      rw [split] at sorted tiles
      obtain ⟨A', rfl⟩ := tiles_before tiles (split ▸ inside) ends
      obtain ⟨_, above, below⟩ := List.pairwise_append.mp sorted
      obtain ⟨t', st', B', eq, list, same, nodes', bound⟩ := deleteNode_nodes fresh parentNull
        nodes small split (fun x first => below x first n (by simp))
        (List.pairwise_cons.mp above).1 (ok ⟨prev, inside, used, ends⟩)
      rw [List.append_assoc, List.singleton_append] at list tiles split
      have joined := join_blocks tiles fits used free same
      have written := write_list list nodes'.ptrs (AvlNode.addPages n.pageCount)
      refine ⟨prev.addPages n.pageCount, writeNode prev.ptr (AvlNode.addPages n.pageCount) t', st',
        A', B', by simp [mergeBelow, found, used, eq, AvlNode.addPages], written, used, joined.stop,
        nodes'.write prev.ptr fun _ => rfl, by rw [top_write]; omega, ?_⟩
      rw [written, split]
      exact ⟨joined.tiles, joined.used, joined.starts⟩

theorem mergeAfter_step (fresh : FreshSource src live) (parentNull : Bool) {st : σ × Phys}
    {t : AvlTree} {C D : List AvlNode} {q : AvlNode} (nodes : Nodes (live st.1) t)
    (small : top t ≤ 250) (split : t.toList = C ++ q :: D)
    (tiles : Tiles AvlNode.addr AvlNode.len lo hi t.toList) (fits : hi ≤ 2 ^ 64)
    (free : q.allocated = false)
    (near : ∀ v ∈ t.toList, v.allocated = false → v.addr = q.stop → v.addr = q.addr + q.len)
    (ok : ∀ v ∈ t.toList, v.allocated = false → v.addr = q.addr + q.len →
      removable v.addr t = true) :
    ∃ t' st', mergeAfter src parentNull q.ptr t st = some (t', st') ∧ Nodes (live st'.1) t' ∧
      Tiles AvlNode.addr AvlNode.len lo hi t'.toList ∧ blocks t'.toList = blocks t.toList := by
  have here := nodeAt_list split nodes.ptrs
  cases found : avlFind q.stop t with
  | none => exact ⟨t, st, by simp [mergeAfter, here, found], nodes, tiles, rfl⟩
  | some after =>
    cases used : after.allocated with
    | true => exact ⟨t, st, by simp [mergeAfter, here, found, used], nodes, tiles, rfl⟩
    | false =>
      obtain ⟨inside, addr⟩ := find_some found
      have begins := near after inside used addr
      have ready := ok after inside used begins
      have sorted := tiles_sorted tiles
      rw [split] at sorted tiles
      obtain ⟨D', rfl⟩ := tiles_after tiles (split ▸ inside) begins
      have written := write_list split nodes.ptrs (AvlNode.addPages after.pageCount)
      have split' : (writeNode q.ptr (AvlNode.addPages after.pageCount) t).toList =
          (C ++ [q.addPages after.pageCount]) ++ after :: D' := by simpa using written
      obtain ⟨_, above, below⟩ := List.pairwise_append.mp sorted
      have first : ∀ x ∈ C ++ [q.addPages after.pageCount], x.addr < after.addr := by
        intro x within
        rcases List.mem_append.mp within with within | within
        · exact below x within after (by simp)
        · rw [List.mem_singleton.mp within]
          exact (List.pairwise_cons.mp above).1 after (by simp)
      have kept : Nodes (live st.1) (writeNode q.ptr (AvlNode.addPages after.pageCount) t) :=
        nodes.write q.ptr fun _ => rfl
      obtain ⟨t', st', B', eq, list, same, nodes', _⟩ := deleteNode_nodes fresh parentNull kept
        (by rw [top_write]; exact small) split' first
        (List.pairwise_cons.mp (List.pairwise_cons.mp above).2).1
        (removable_write q.ptr (fun _ => rfl) ready)
      have joined := join_blocks tiles fits free used same
      refine ⟨t', st', by simp [mergeAfter, here, found, used, eq], nodes', ?_⟩
      rw [list, split, List.append_assoc, List.singleton_append]
      exact ⟨joined.tiles, joined.used⟩

end Steps

end Gapxos
