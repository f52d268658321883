import Gapxos.Lib.Runs
import Gapxos.Vmm.SetPage

/-! Who owns a physical page: the usable bit of a leaf entry says that the page goes back to
the PMM with its mapping. free_page honours the bit, set_page overwrites it. -/
namespace Gapxos
open Radix

def ownerOf (e : Word) : Option Nat :=
  if e &&& pageCustomUsable ≠ 0 then some (e &&& maskRemove12l).toNat else none

def leafOwner : List Word → Option Nat
  | [_, _, _, e] => ownerOf e
  | _ => none

def ownerAt (m : Mem) (cr3 v : Nat) : Option Nat := leafOwner (trace child m cr3 (path v))

/-- The addresses that a call passes to pmm_free_page. -/
def PageCall.passes (pml4t : Nat) (s : Phys) : PageCall → List Nat
  | .set _ _ _ => []
  | .free v =>
    let (s, pt, i) := getPageTableEntry s pml4t (v &&& maskRemove16u) 0
    if s.mem pt i &&& pageCustomUsable ≠ 0 then [(s.mem pt i &&& maskRemove12l).toNat] else []

def PageCall.addFlags : PageCall → Word
  | .set _ _ flags => tableFlags flags
  | .free _ => 0

theorem PageCall.step_stack (pml4t : Nat) (s : Phys) (c : PageCall) :
    (c.step pml4t s).freePages =
      (getPageTableEntry s pml4t (c.vaddr &&& maskRemove16u) c.addFlags).1.freePages ++
        c.passes pml4t s := by
  cases c with
  | set v paddr flags => exact (List.append_nil _).symm
  | free v =>
    simp only [PageCall.step, freePage, PageCall.passes, PageCall.vaddr, PageCall.addFlags]
    split
    · rfl
    · exact (List.append_nil _).symm

def PageCall.owns : PageCall → Option Nat
  | .set _ paddr flags =>
    if flags.usable then some (BitVec.ofNat 64 paddr &&& maskRemove12l).toNat else none
  | .free _ => none

def reown (owner : Nat → Option Nat) (c : PageCall) : Nat → Option Nat :=
  fun w => if pageOf w = pageOf c.vaddr then c.owns else owner w

/-- The owners by the calls alone. -/
def owners (start : Nat → Option Nat) (calls : List PageCall) : Nat → Option Nat :=
  calls.foldl reown start

/-- The upper tables of `v` are there, or frames without a bit set can be drawn for them. -/
def TablesReady (s : Phys) (cr3 v : Nat) : Prop :=
  UpperPresent s.mem cr3 v ∧ LowWalk (trace child s.mem cr3 ((path v).take 3)) ∨
    SmallWalk (trace child s.mem cr3 ((path v).take 3)) ∧
      ∃ rest top, FreshTop s cr3 rest top ∧ 3 ≤ top.length ∧ ∀ k ∈ top, ∀ j, s.mem k j = 0

/-- A call whose tables are ready and that replaces no page that is owned. -/
def PageCall.Releases (pml4t : Nat) (s : Phys) (c : PageCall) : Prop :=
  TablesReady s (pml4t / 4096) c.vaddr ∧
    match c with
    | .set v _ _ => ownerAt s.mem (pml4t / 4096) v = none
    | .free _ => True

theorem leafOwner_last {t : List Word} {e : Word} (last : t.getLast? = some e)
    (blank : e = 0) : leafOwner t = none := by
  match t with
  | [_, _, _, x] =>
    have own : x = e := Option.some.inj last
    rw [own, blank]
    rfl
  | [] | [_] | [_, _] | [_, _, _] | _ :: _ :: _ :: _ :: _ :: _ => rfl

theorem leafOwner_congr {t t' : List Word} (len : t.length = t'.length)
    (last : t.getLast? = t'.getLast?) : leafOwner t = leafOwner t' := by
  match t, t', len with
  | [], [], _ | [_], [_], _ | [_, _], [_, _], _ | [_, _, _], [_, _, _], _ => rfl
  | [_, _, _, _], [_, _, _, _], _ =>
    cases Option.some.inj last
    rfl
  | _ :: _ :: _ :: _ :: _ :: _, _ :: _ :: _ :: _ :: _ :: _, _ => rfl

theorem leafOwner_observes : Observes (fun e => e = 0) (fun _ t => leafOwner t) none where
  absent e blank := by rw [blank]; rfl
  congr _ _ _ := leafOwner_congr
  empty _ _ _ := leafOwner_last
  missing _ t _ short _ _ := by
    match t, short with
    | [], _ | [_], _ | [_, _], _ | [_, _, _], _ => rfl

section Calls

variable {s : Phys} {pml4t cr3 v : Nat} {fl : Word}

theorem TablesReady.opened {β : Type} {obs : Nat → List Word → β} {nothing : β}
    (observes : Observes (fun e => e = 0) obs nothing) (tables : TableTree s.mem cr3)
    (ready : TablesReady s cr3 v) (flag : FlagWord fl) {k : Nat} (few : k ≤ 3) :
    ∃ s' pt, openPath s cr3 fl ((path v).take k) = (s', pt) ∧
      TableTree s'.mem cr3 ∧ tableAt child s'.mem cr3 ((path v).take k) = some pt ∧
      ∀ w, obs w (trace child s'.mem cr3 (path w)) = obs w (trace child s.mem cr3 (path w)) := by
  have short : ((path v).take k).length ≤ 3 := by
    rw [List.length_take]
    omega
  have split : (path v).take 3 = (path v).take k ++ ((path v).take 3).drop k := by
    nth_rewrite 1 [← List.take_append_drop k ((path v).take 3)]
    rw [List.take_take, Nat.min_eq_left few]
  have part : trace child s.mem cr3 ((path v).take k) <+:
      trace child s.mem cr3 ((path v).take 3) := by
    rw [split]
    exact trace_part _ _ _ _
  rcases ready with ⟨⟨pt, upper⟩, low⟩ | ⟨small, rest, top, fresh, enough, blank⟩
  · rw [split, tableAt_append] at upper
    obtain ⟨f, upper, _⟩ := Option.bind_eq_some_iff.mp upper
    obtain ⟨s', eq, level, _⟩ := openPath_present tables flag (q := []) rfl
      (by simpa using short) upper fun e inside => low e (part.subset inside)
    refine ⟨s', f, eq, level.tables, (level.paths _ _).trans upper, fun w => ?_⟩
    have wide := level.walks (path w) rfl
    exact observes.congr w _ _ wide.1.length_eq.symm wide.2.symm
  · have opened := observes.fill tables flag (q := []) rfl (by simpa using short)
      (fun e inside => small e (part.subset inside)) fresh (by omega) blank
    exact ⟨_, _, rfl, opened.1, opened.2.1, opened.2.2⟩

theorem ownerAt_leaf {m : Mem} {pt : Nat} (tables : TableTree m cr3)
    (upper : tableAt child m cr3 ((path v).take 3) = some pt) (e : Word) (w : Nat) :
    ownerAt (store m pt (Fin.ofNat 512 (v / 2 ^ 12)) e) cr3 w =
      if pageOf w = pageOf v then ownerOf e else ownerAt m cr3 w := by
  obtain ⟨others, own⟩ := leaf_store (e := e) tables upper
  by_cases same : pageOf w = pageOf v
  · rw [if_pos same, ownerAt, (path_eq_iff w v).mpr same, own]
    obtain ⟨a, b, c, three⟩ := trace_upper upper
    rw [three]
    rfl
  · rw [if_neg same, ownerAt, others w same, ownerAt]

theorem ownerAt_entry {m : Mem} {pt : Nat}
    (upper : tableAt child m cr3 ((path v).take 3) = some pt) :
    ownerAt m cr3 v = ownerOf (m pt (Fin.ofNat 512 (v / 2 ^ 12))) := by
  rw [ownerAt, path_split, trace_append upper]
  obtain ⟨a, b, c, three⟩ := trace_upper upper
  rw [three]
  simp only [trace]
  cases child (m pt (Fin.ofNat 512 (v / 2 ^ 12))) <;> rfl

theorem leafEntry_owner (paddr : Nat) (flags : PageFlags) :
    ownerOf (leafEntry paddr flags) = PageCall.owns (.set v paddr flags) := by
  have mask : maskRemove12l &&& ~~~pageNx = maskRemove12l := by decide
  have nx : ∀ exec : Bool, (if exec then 0 else pageNx) &&& maskRemove12l = 0#64 ∧
    (if exec then 0 else pageNx) &&& pageCustomUsable = 0#64 := by decide
  have bits : tableFlags flags &&& maskRemove12l = 0#64 ∧
      tableFlags flags &&& pageCustomUsable = if flags.usable then pageCustomUsable else 0 := by
    obtain ⟨w, x, k, u, p⟩ := flags
    revert w x k u p
    decide
  have addr : leafEntry paddr flags &&& maskRemove12l =
      BitVec.ofNat 64 paddr &&& maskRemove12l := by
    rw [leafEntry, mask, BitVec.and_or_distrib_right, BitVec.and_or_distrib_right, bits.1,
      (nx flags.exec).1, BitVec.and_assoc, BitVec.and_self, BitVec.or_zero, BitVec.or_zero]
  have usable : leafEntry paddr flags &&& pageCustomUsable =
      if flags.usable then pageCustomUsable else 0 := by
    have apart : maskRemove12l &&& pageCustomUsable = 0#64 := by decide
    rw [leafEntry, mask, BitVec.and_or_distrib_right, BitVec.and_or_distrib_right, bits.2,
      (nx flags.exec).2, BitVec.and_assoc, apart, BitVec.and_zero, BitVec.zero_or, BitVec.or_zero]
  rw [ownerOf, addr, usable, PageCall.owns]
  cases flags.usable <;> rfl

theorem PageCall.step_owner {c : PageCall} (tables : TableTree s.mem (pml4t / 4096))
    (ready : TablesReady s (pml4t / 4096) c.vaddr) :
    TableTree (c.step pml4t s).mem (pml4t / 4096) ∧
      ownerAt (c.step pml4t s).mem (pml4t / 4096) = reown (ownerAt s.mem (pml4t / 4096)) c ∧
      ∀ v, c = .free v → c.passes pml4t s = (ownerAt s.mem (pml4t / 4096) v).toList := by
  cases c with
  | set v paddr flags =>
    obtain ⟨s', pt, eq, tree, upper, same⟩ := ready.opened leafOwner_observes tables
      (tableFlags_flagWord flags) (Nat.le_refl 3)
    simp only [PageCall.vaddr] at eq upper
    have mem : (PageCall.step pml4t s (.set v paddr flags)).mem =
        store s'.mem pt (Fin.ofNat 512 (v / 2 ^ 12)) (leafEntry paddr flags) := by
      simp only [PageCall.step, setPage, getPageTableEntry_masked, eq, Phys.write_mem]
    rw [mem]
    refine ⟨tree_store_leaf _ tree upper rfl, funext fun w => ?_, fun v no => by cases no⟩
    rw [ownerAt_leaf tree upper, leafEntry_owner (v := v), reown, PageCall.vaddr, ownerAt, same w,
      ← ownerAt]
  | free v =>
    obtain ⟨s', pt, eq, tree, upper, same⟩ := ready.opened leafOwner_observes tables zero_flagWord
      (Nat.le_refl 3)
    simp only [PageCall.vaddr] at eq upper
    have mem : (PageCall.step pml4t s (.free v)).mem =
        store s'.mem pt (Fin.ofNat 512 (v / 2 ^ 12)) 0 := by
      simp only [PageCall.step, freePage, getPageTableEntry_masked, eq, Phys.write_mem]
      split <;> rfl
    rw [mem]
    refine ⟨tree_store_leaf _ tree upper rfl, funext fun w => ?_, ?_⟩
    · rw [ownerAt_leaf tree upper, ownerAt, same w]
      rfl
    · rintro v ⟨⟩
      rw [ownerAt, ← same v, ← ownerAt, ownerAt_entry upper, ownerOf]
      simp only [PageCall.passes, getPageTableEntry_masked, eq]
      split <;> rfl

end Calls

/-- In a run of such calls each passes exactly the page that its virtual page owned by the
calls before it. -/
theorem usable_passed_once (pml4t : Nat) (s : Phys) (calls before : List PageCall) (c : PageCall)
    (tables : TableTree s.mem (pml4t / 4096))
    (releases : Runs.All (fun s c => some (c.step pml4t s)) (PageCall.Releases pml4t) s calls)
    (part : before ++ [c] <+: calls) :
    c.passes pml4t (before.foldl (PageCall.step pml4t) s) =
      (owners (ownerAt s.mem (pml4t / 4096)) before c.vaddr).toList := by
  induction before generalizing s calls with
  | nil =>
    obtain ⟨rest, rfl⟩ := part
    obtain ⟨⟨ready, free⟩, _⟩ := releases
    cases c with
    | set v paddr flags =>
      have none : owners (ownerAt s.mem (pml4t / 4096)) [] v = none := free
      rw [PageCall.vaddr, none]
      rfl
    | free v => exact (PageCall.step_owner tables ready).2.2 v rfl
  | cons d before ih =>
    obtain ⟨rest, rfl⟩ := part
    obtain ⟨⟨ready, _⟩, later⟩ := releases
    obtain ⟨tables', moved, _⟩ := PageCall.step_owner tables ready
    have tail := ih (d.step pml4t s) _ tables' (later _ rfl) (List.prefix_append _ rest)
    rw [moved] at tail
    exact tail

theorem CleanPath.ready {s : Phys} {cr3 v : Nat} (clean : CleanPath s.mem cr3 v) :
    TablesReady s cr3 v :=
  .inl ⟨clean.upper, fun e inside _ => (clean.entries e inside).2⟩

theorem usable_passed_once_chain :
    (PageCall.free 0x1000).passes 0x1000 (setPage ⟨chainMem, [], 0⟩ 0x1000 0x1000 0x5000
      ⟨true, false, true, true, true⟩) = [0x5000] := by
  have inv : RightsInv chainMem 1 [0x1000] := ⟨chainMem_tree, chainMem_contained, by
    intro v inside
    rw [List.mem_singleton.mp inside]
    exact chainMem_clean rfl⟩
  have next : RightsInv (PageCall.step 0x1000 ⟨chainMem, [], 0⟩
      (.set 0x1000 0x5000 ⟨true, false, true, true, true⟩)).mem (0x1000 / 4096) [0x1000] :=
    (PageCall.step_spec inv List.mem_cons_self (by show 0x5000 < 2 ^ 48; decide)).1
  have releases : Runs.All (fun s c => some (PageCall.step 0x1000 s c)) (PageCall.Releases 0x1000)
      ⟨chainMem, [], 0⟩ [.set 0x1000 0x5000 ⟨true, false, true, true, true⟩, .free 0x1000] := by
    refine ⟨⟨(inv.clean 0x1000 List.mem_cons_self).ready, by decide⟩, ?_⟩
    rintro s ⟨⟩
    exact ⟨⟨(next.clean 0x1000 List.mem_cons_self).ready, trivial⟩, fun _ _ => trivial⟩
  exact usable_passed_once 0x1000 ⟨chainMem, [], 0⟩ _
    [.set 0x1000 0x5000 ⟨true, false, true, true, true⟩] (.free 0x1000) chainMem_tree releases
    (List.prefix_refl _)

/-- set_page over a usable page: its frame is lost, no call passes it any more. -/
theorem setPage_loses_page :
    let flags : PageFlags := ⟨true, false, true, true, true⟩
    let s := PageCall.step 0x1000 ⟨chainMem, [], 0⟩ (.set 0x1000 0x5000 flags)
    owners (ownerAt chainMem 1) [.set 0x1000 0x5000 flags] 0x1000 = some 0x5000 ∧
      (PageCall.set 0x1000 0x6000 flags).passes 0x1000 s = [] ∧
      (PageCall.free 0x1000).passes 0x1000 (PageCall.step 0x1000 s (.set 0x1000 0x6000 flags)) =
        [0x6000] := by
  decide

end Gapxos
