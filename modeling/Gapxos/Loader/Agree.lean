import Gapxos.Loader.Tables

/-! The kernel's get_page_table_entry on the tables that the loader's add_page wrote. -/
namespace Gapxos
open Bytes Radix

theorem nextTable_still {s : Phys} {f : Nat} {i : Fin 512} (there : present (s.mem f i) = true) :
    nextTable s f i 0 = (s, frameOf (s.mem f i)) := by
  have same : s.write f i (s.mem f i) = s := by rw [Phys.write, store_self]
  simp [nextTable, there, same]

theorem openPath_still {s : Phys} {r f pt : Nat} {q p : List (Fin 512)}
    (low : ∀ p f, p.length ≤ 3 → tableAt child s.mem r p = some f → f < 2 ^ 36)
    (reach : tableAt child s.mem r q = some f) (len : q.length + p.length ≤ 3)
    (upper : tableAt child s.mem f p = some pt) : openPath s f 0 p = (s, pt) := by
  induction p generalizing f q with
  | nil =>
    cases Option.some.inj upper
    rfl
  | cons i p ih =>
    simp only [List.length_cons] at len
    simp only [tableAt, Option.bind_eq_some_iff] at upper
    obtain ⟨g, edge, upper⟩ := upper
    obtain ⟨there, _, frame⟩ := child_eq_some.mp edge
    have below := tableAt_snoc reach edge
    have bound := low (q ++ [i]) g (by simp; omega) below
    have next : frameOf (s.mem f i) = g := by rw [frameOf_eq, frame, Nat.mod_eq_of_lt bound]
    rw [openPath, nextTable_still there, next]
    exact ih below (by simp; omega) upper

/-- get_page_table_entry finds the entry `e` for `v`, and does nothing else. -/
def Reaches (s : Loader) (v : Nat) (e : Word) : Prop :=
  ∀ stack misses, ∃ pt i,
    getPageTableEntry ⟨frames s.mem, stack, misses⟩ s.pml4t (v &&& maskRemove16u) 0 =
      (⟨frames s.mem, stack, misses⟩, pt, i) ∧ frames s.mem pt i = e

/-- The three entries above the leaf of `v` are there. -/
def UpperEntries (m : Mem) (cr3 v : Nat) : Prop :=
  (trace child m cr3 ((path v).take 3)).length = 3 ∧
    ∀ e ∈ trace child m cr3 ((path v).take 3), present e = true

section Leaf

variable {k : Nat}

theorem clear_noExec {w : Word} (clear : noExec w = false) : w &&& ~~~pageNx = w := by
  apply BitVec.eq_of_getLsbD_eq
  intro i hi
  have bit : pageNx.getLsbD i = decide (i = 63) := by
    have all : ∀ j : Fin 64, pageNx.getLsbD j.val = decide (j.val = 63) := by decide
    exact all ⟨i, hi⟩
  simp only [BitVec.getLsbD_and, BitVec.getLsbD_not, bit, hi, decide_true, Bool.true_and]
  by_cases last : i = 63
  · have none : w.getLsbD 63 = false := clear
    rw [last, none]
    rfl
  · simp [last]

theorem loaderLeaf_bits (low : k < 2 ^ 20) (exec : Bool) :
    present (loaderLeaf (4096 * k) exec) = true ∧ writable (loaderLeaf (4096 * k) exec) = true ∧
      userBit (loaderLeaf (4096 * k) exec) = false ∧ noExec (loaderLeaf (4096 * k) exec) = !exec ∧
      hwFrame (loaderLeaf (4096 * k) exec) = k := by
  have top : (BitVec.ofNat 64 (4096 * k)).getLsbD 63 = false := by
    rw [BitVec.getLsbD_ofNat, Nat.testBit_lt_two_pow (by omega), Bool.and_false]
  have two := page_low_bit k (show 2 < 12 by omega)
  have none : noExec (BitVec.ofNat 64 (4096 * k) ||| pagePresent ||| pageRw) = false := by
    unfold noExec
    rw [BitVec.getLsbD_or, BitVec.getLsbD_or, top]
    decide
  have user : userBit (BitVec.ofNat 64 (4096 * k) ||| pagePresent ||| pageRw) = false := by
    unfold userBit
    rw [BitVec.getLsbD_or, BitVec.getLsbD_or, two]
    decide
  have frame : hwFrame (BitVec.ofNat 64 (4096 * k) ||| pagePresent ||| pageRw) = k := by
    rw [hwFrame_or (by decide), hwFrame_or (by decide), hwFrame_page (by omega)]
  cases exec with
  | true =>
    rw [loaderLeaf, if_pos rfl, clear_noExec none]
    exact ⟨by simp [present, pagePresent], by simp [writable, pageRw], user, none, frame⟩
  | false =>
    rw [loaderLeaf, if_neg (by decide)]
    refine ⟨by simp [present, pagePresent], by simp [writable, pageRw], ?_,
      by simp [noExec, pageNx],
      (hwFrame_or (by decide)).trans frame⟩
    simp only [userBit, BitVec.getLsbD_or] at user ⊢
    rw [user]
    decide

end Leaf

theorem path_off_identity {v : Nat} (outside : 2 ^ 30 ≤ v % 2 ^ 48) :
    (path v).take 2 ≠ [0, 0] := by
  intro same
  simp only [path, List.take_succ_cons, List.take_zero, List.cons.injEq, Fin.ext_iff, Fin.ofNat,
    and_true] at same
  have : (0 : Fin 512).val = 0 := rfl
  omega

section Adds

variable {r k : Nat} {s : Loader} {adds before : List Add} {v : Nat}

theorem add_point_le (s : Loader) (a : Add) :
    s.pageFreePoint ≤ (s.add a).pageFreePoint ∧
      (s.add a).pageFreePoint ≤ s.pageFreePoint + 0x3000 := by
  rw [Loader.add, addPage_eq]
  exact openPath_point_le s s.pml4t ((path a.virt).take 3)

theorem adds_point_le (s : Loader) (adds : List Add) :
    s.pageFreePoint ≤ (adds.foldl Loader.add s).pageFreePoint ∧
      (adds.foldl Loader.add s).pageFreePoint ≤ s.pageFreePoint + 0x3000 * adds.length := by
  induction adds generalizing s with
  | nil => exact ⟨Nat.le_refl _, Nat.le_refl _⟩
  | cons a adds ih =>
    obtain ⟨low, high⟩ := add_point_le s a
    obtain ⟨low', high'⟩ := ih (s.add a)
    rw [List.foldl_cons, List.length_cons]
    exact ⟨by omega, by omega⟩

theorem Mapped.run (inv : Mapped r k before s) (bound : r + 256 ≤ 2 ^ 20)
    (outside : ∀ a ∈ adds, 2 ^ 30 ≤ a.virt % 2 ^ 48)
    (room : (adds.foldl Loader.add s).pageFreePoint ≤ 4096 * (r + 256)) :
    ∃ k', Mapped r k' (before ++ adds) (adds.foldl Loader.add s) := by
  induction adds generalizing s before k with
  | nil => exact ⟨k, by rw [List.append_nil]; exact inv⟩
  | cons a adds ih =>
    have first := path_off_identity (outside a List.mem_cons_self)
    obtain ⟨⟨k', inv'⟩, _⟩ := inv.add bound first (Nat.le_trans (adds_point_le _ adds).1 room)
    obtain ⟨k'', inv''⟩ := ih inv' (fun b inside => outside b (List.mem_cons_of_mem a inside)) room
    rw [List.append_assoc, List.singleton_append] at inv''
    exact ⟨k'', inv''⟩

theorem Mapped.reaches (inv : Mapped r k adds s) (bound : r + 256 ≤ 2 ^ 20)
    (upper : UpperPresent (frames s.mem) r v) : Reaches s v (leafWord (lastAdd adds v)) := by
  obtain ⟨pt, reach⟩ := upper
  intro stack misses
  have low : ∀ p f, p.length ≤ 3 → tableAt child (frames s.mem) r p = some f → f < 2 ^ 36 := by
    intro p f short at_f
    have := inv.used p f short at_f
    have := inv.space
    omega
  refine ⟨pt, Fin.ofNat 512 (v / 2 ^ 12), ?_, inv.leaf v pt reach⟩
  have still : openPath ⟨frames s.mem, stack, misses⟩ r 0 ((path v).take 3) =
      (⟨frames s.mem, stack, misses⟩, pt) := openPath_still low (q := []) rfl (by simp [path]) reach
  rw [getPageTableEntry_masked, inv.root, Nat.mul_div_cancel_left r (by decide), still]

theorem Tables.upper_present (inv : Tables r k s) (outside : 2 ^ 30 ≤ v % 2 ^ 48)
    (entries : UpperEntries (frames s.mem) r v) : UpperPresent (frames s.mem) r v := by
  cases found : tableAt child (frames s.mem) r ((path v).take 3) with
  | some pt => exact ⟨pt, found⟩
  | none =>
    obtain ⟨q, i, t, f, split, reach, stop⟩ := tableAt_eq_none found
    have len : q.length + (t.length + 1) = 3 := by
      simpa [path] using (congrArg List.length split).symm
    have off : q ≠ [0, 0] := by
      rintro rfl
      refine path_off_identity outside ?_
      have : ((path v).take 3).take 2 = [0, 0] := by rw [split]; rfl
      exact this
    have member : frames s.mem f i ∈ trace child (frames s.mem) r ((path v).take 3) := by
      rw [split, trace_append reach]
      simp [trace]
    rcases inv.upper q f i (by omega) reach off with zero | ⟨g, low, entry⟩
    · have there := entries.2 _ member
      rw [zero] at there
      exact absurd there (by decide)
    · rw [entry, loaderEntry_child low] at stop
      cases stop

end Adds

theorem walkers_agree (mem : Memory) (r : Nat) (bound : r + 256 ≤ 2 ^ 20) (adds : List Add)
    (args : ∀ a ∈ adds, a.phys % 4096 = 0 ∧ a.phys < 2 ^ 32 ∧ 2 ^ 30 ≤ a.virt % 2 ^ 48)
    (room : (adds.foldl Loader.add (initPageStructure mem (4096 * r))).pageFreePoint ≤
      4096 * r + 0x100000) (v : Nat) :
    let s := adds.foldl Loader.add (initPageStructure mem (4096 * r))
    (∀ a, lastAdd adds v = some a → ∃ e, Reaches s v e ∧ present e = true ∧
      frameOf e = a.phys / 4096 ∧ noExec e = !a.exec) ∧
    (lastAdd adds v = none → 2 ^ 30 ≤ v % 2 ^ 48 → UpperEntries (frames s.mem) r v →
      ∃ e, Reaches s v e ∧ present e = false) := by
  rw [show 4096 * r + 0x100000 = 4096 * (r + 256) by omega] at room
  obtain ⟨k, inv⟩ := (init_tables mem r bound).run bound (fun a inside => (args a inside).2.2) room
  intro s
  rw [List.nil_append] at inv
  refine ⟨fun a found => ?_, fun none outside entries => ?_⟩
  · obtain ⟨inside, page⟩ := lastAdd_mem found
    obtain ⟨aligned, small, _⟩ := args a inside
    have upper := inv.there a inside
    rw [UpperPresent, (path_eq_iff _ _).mpr page] at upper
    have leaf := inv.reaches bound upper
    have bits := loaderLeaf_bits (show a.phys / 4096 < 2 ^ 20 by omega) a.exec
    rw [show 4096 * (a.phys / 4096) = a.phys by omega] at bits
    rw [found] at leaf
    refine ⟨_, leaf, bits.1, ?_, bits.2.2.2.1⟩
    rw [frameOf_eq]
    show hwFrame (loaderLeaf a.phys a.exec) % 2 ^ 36 = _
    rw [bits.2.2.2.2]
    omega
  · have leaf := inv.reaches bound (inv.upper_present outside entries)
    rw [none] at leaf
    exact ⟨_, leaf, by decide⟩

/- Two pages of the kernel, the second one added again at another place. -/
def threeAdds : List Add :=
  [⟨0xffff800000000000, 0x400000, true⟩, ⟨0xffff800000001000, 0x401000, false⟩,
    ⟨0xffff800000001000, 0x600000, false⟩]

theorem walkers_agree_kernel :
    ∃ e, Reaches (threeAdds.foldl Loader.add (initPageStructure (fun _ => 0) (4096 * 0x200)))
        0xffff800000001000 e ∧
      present e = true ∧ frameOf e = 0x600 ∧ noExec e = true := by
  have room : (threeAdds.foldl Loader.add (initPageStructure (fun _ => 0) (4096 * 0x200))
      ).pageFreePoint ≤ 4096 * 0x200 + 0x100000 :=
    Nat.le_trans (adds_point_le _ _).2 (by decide)
  exact (walkers_agree (fun _ => 0) 0x200 (by decide) threeAdds
    (by decide) room 0xffff800000001000).1 _ rfl

/-- The kernel takes a large page of the identity map for a table: for the page at 0 it
ends in frame 0 and finds what the memory there holds. -/
theorem walker_enters_large_page :
    let s := initPageStructure (fun _ => 1) (4096 * 0x200)
    lastAdd [] 0 = none ∧ s.pageFreePoint ≤ 4096 * 0x200 + 0x100000 ∧
      UpperEntries (frames s.mem) 0x200 0 ∧
      Reaches s 0 0x0101010101010101#64 ∧ present 0x0101010101010101#64 = true := by
  have point := (init_tables (fun _ => 1) 0x200 (by decide)).point
  have root := (init_tables (fun _ => 1) 0x200 (by decide)).root
  obtain ⟨row, row', row'', _, rest⟩ := init_frames (fun _ => 1) 0x200
  -- from here on only these facts about the tables are used
  generalize initPageStructure (fun _ => 1) (4096 * 0x200) = s at *
  have first : frames s.mem 0x200 0 = 0x201003#64 := (row 0).trans (by decide)
  have second : frames s.mem 0x201 0 = 0x202003#64 := (row' 0).trans (by decide)
  have third : frames s.mem 0x202 0 = 0x83#64 := (congrFun row'' 0).trans (by decide)
  have last : frames s.mem 0 0 = 0x0101010101010101#64 := by
    have frame : frames s.mem 0 = frames (fun _ => 1) 0 :=
      frames_congr fun x _ high => rest x (.inl (by omega))
    rw [frame]
    decide
  have zero : (path 0).take 3 = [0, 0, 0] := by decide
  have entries : trace child (frames s.mem) 0x200 ((path 0).take 3) =
      [0x201003#64, 0x202003#64, 0x83#64] := by
    have one : child 0x201003#64 = some 0x201 := by decide
    have two : child 0x202003#64 = some 0x202 := by decide
    have none : child 0x83#64 = none := by decide
    simp only [zero, trace, first, one, second, two, third, none]
  refine ⟨rfl, by rw [point]; decide, ⟨by rw [entries]; rfl, by simp [entries, present]⟩,
    fun stack misses => ⟨0, 0, ?_, last⟩, by decide⟩
  have level : ∀ f g e, frames s.mem f 0 = e → present e = true → frameOf e = g →
      nextTable ⟨frames s.mem, stack, misses⟩ f 0 0 = (⟨frames s.mem, stack, misses⟩, g) := by
    rintro f g e rfl there rfl
    exact nextTable_still there
  rw [getPageTableEntry_masked, zero, root, Nat.mul_div_cancel_left _ (by decide)]
  simp only [openPath, level 0x200 0x201 _ first (by decide) (by decide),
    level 0x201 0x202 _ second (by decide) (by decide),
    level 0x202 0 _ third (by decide) (by decide)]
  rfl

end Gapxos
