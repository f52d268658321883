import Gapxos.Lib.Locked
import Gapxos.Vmm.Isolation

/-! One memory manager and many cores. lock_mgr exchanges the lock with 1 until it was 0,
unlock_mgr stores 0; in between a call works through the tree and its pages, pass by pass,
while the other cores go on. -/
namespace Gapxos
open SearchTree Locked Runs

/-- Where a core is between lock_mgr and unlock_mgr. -/
inductive Pending
  | start (c : MgrCall)
  | filling (flags : PageFlags) (pageCount addr i : Nat)
  | mapping (flags : PageFlags) (mapAddr pageCount addr i : Nat)
  | unmapping (parentNull : Bool × Bool) (addr : Nat) (n : AvlNode) (i : Nat)
  | merging (parentNull : Bool × Bool) (addr : Nat) (n : AvlNode)
  | joining (parentNull : Bool) (addr ptr : Nat)
  | granted (addr pageCount : Nat)
  | freed (addr : Nat)

section Guard

variable {σ : Type} (src : NodeSource σ)

/- The calls, each from where it is to the next pass. -/
def enterStep (vm : Vm σ) : MgrCall → Option (Pending × Vm σ)
  | .malloc pageCount write exec kernel =>
    (allocVirt src vm.mgr pageCount (vm.nodes, vm.phys)).map fun r =>
      (.filling (mallocFlags write exec kernel) pageCount r.1 0,
        ⟨r.2.1, r.2.2.1, r.2.2.2, vm.held⟩)
  | .map mapAddr pageCount kernel =>
    (allocVirt src vm.mgr pageCount (vm.nodes, vm.phys)).map fun r =>
      (.mapping (mapFlags kernel) mapAddr pageCount r.1 0, ⟨r.2.1, r.2.2.1, r.2.2.2, vm.held⟩)
  | .free addr parentNull =>
    if vm.mgr.tree = .nil then none
    else match avlFind addr vm.mgr.tree with
      | none => some (.freed addr, vm)
      | some n =>
        if n.allocated then
          some (.unmapping parentNull addr n 0,
            { vm with mgr := { vm.mgr with tree := released n vm.mgr.tree } })
        else some (.freed addr, vm)

def Pending.micro (vm : Vm σ) : Pending → Option (Pending × Vm σ)
  | start c => enterStep src vm c
  | filling flags pageCount addr i =>
    if i < pageCount then
      some (filling flags pageCount addr (i + 1),
        { vm with phys := mapFreshPage vm.mgr.pml4t addr flags vm.phys i })
    else some (granted addr pageCount, vm)
  | mapping flags mapAddr pageCount addr i =>
    if i < pageCount then
      some (mapping flags mapAddr pageCount addr (i + 1),
        { vm with phys :=
            setPage vm.phys vm.mgr.pml4t (blockPage addr i) (blockPage mapAddr i) flags })
    else some (granted addr pageCount, vm)
  | unmapping parentNull addr n i =>
    if i < n.pageCount then
      some (unmapping parentNull addr n (i + 1),
        { vm with phys := freePage vm.phys vm.mgr.pml4t (blockPage addr i) })
    else some (merging parentNull addr n, vm)
  | merging parentNull addr n =>
    (mergeBelow src parentNull.1 addr n vm.mgr.tree (vm.nodes, vm.phys)).map fun r =>
      (joining parentNull.2 addr r.1,
        ⟨{ vm.mgr with tree := r.2.1 }, r.2.2.1, r.2.2.2, vm.held⟩)
  | joining parentNull addr ptr =>
    (mergeAfter src parentNull ptr vm.mgr.tree (vm.nodes, vm.phys)).map fun r =>
      (freed addr, ⟨{ vm.mgr with tree := r.1 }, r.2.1, r.2.2, vm.held⟩)
  | granted _ _ => none
  | freed _ => none

def Pending.answer : Pending → Option Nat
  | granted addr _ => some addr
  | freed _ => some 0
  | _ => none

def Pending.heldAfter (held : List (Nat × Nat)) : Pending → List (Nat × Nat)
  | granted addr pageCount => (addr, pageCount) :: held
  | freed addr => held.filter (·.1 ≠ addr)
  | _ => held

def MgrCall.enter : MgrCall → Option Pending
  | malloc pageCount write exec kernel =>
    if pageCount = 0 then none else some (.start (malloc pageCount write exec kernel))
  | map mapAddr pageCount kernel =>
    if pageCount = 0 ∨ mapAddr % 0x1000 ≠ 0 then none
    else some (.start (map mapAddr pageCount kernel))
  | free addr parentNull => some (.start (free addr parentNull))

theorem allocVirt_lock {m : MemoryManager} {pageCount : Nat} {st : σ × Phys}
    {r : Nat × MemoryManager × σ × Phys} (found : allocVirt src m pageCount st = some r) :
    r.2.1.lock = m.lock ∧ r.2.1.pml4t = m.pml4t := by
  unfold allocVirt at found
  split at found
  · cases found
  · split at found
    · cases found
      exact ⟨rfl, rfl⟩
    · obtain ⟨q, -, rfl⟩ := Option.map_eq_some_iff.mp found
      exact ⟨rfl, rfl⟩

theorem enterStep_lock {vm : Vm σ} {c : MgrCall} {next : Pending × Vm σ}
    (one : enterStep src vm c = some next) : next.2.mgr.lock = vm.mgr.lock := by
  cases c with
  | malloc =>
    obtain ⟨r, found, rfl⟩ := Option.map_eq_some_iff.mp one
    exact (allocVirt_lock src found).1
  | map =>
    obtain ⟨r, found, rfl⟩ := Option.map_eq_some_iff.mp one
    exact (allocVirt_lock src found).1
  | free addr parentNull =>
    simp only [enterStep] at one
    split at one
    · cases one
    split at one
    · cases one
      rfl
    split at one
    · cases one
      rfl
    · cases one
      rfl

theorem micro_lock {vm : Vm σ} {l : Pending} {next : Pending × Vm σ}
    (one : l.micro src vm = some next) : next.2.mgr.lock = vm.mgr.lock := by
  cases l with
  | start c => exact enterStep_lock src one
  | granted => cases one
  | freed => cases one
  | merging =>
    obtain ⟨r, -, rfl⟩ := Option.map_eq_some_iff.mp one
    rfl
  | joining =>
    obtain ⟨r, -, rfl⟩ := Option.map_eq_some_iff.mp one
    rfl
  | _ =>
    simp only [Pending.micro] at one
    split at one
    · cases one
      rfl
    · cases one
      rfl

/-- The calls on a manager, as a section behind its lock. -/
def mgrGuard : Guarded (Vm σ) Pending MgrCall Nat where
  locked vm := vm.mgr.lock
  lock vm := { vm with mgr := { vm.mgr with lock := true } }
  enter := MgrCall.enter
  refused _ := 0
  micro l vm := l.micro src vm
  answer := Pending.answer
  unlock l vm := { vm with mgr := { vm.mgr with lock := false }, held := l.heldAfter vm.held }
  locked_lock _ := rfl
  lock_locked vm locked := by
    obtain ⟨⟨tree, pml4t, lock⟩, nodes, phys, held⟩ := vm
    cases locked
    rfl
  locked_micro _ _ _ one := micro_lock src one
  locked_unlock _ _ := rfl

end Guard

section Alone

variable {σ : Type} (src : NodeSource σ)

/-- A call with its answer; free_pages has none. -/
def MgrCall.answered (vm : Vm σ) : MgrCall → Option (Nat × Vm σ)
  | malloc pageCount write exec kernel =>
    (mallocPages src vm.mgr (vm.nodes, vm.phys) pageCount write exec kernel).map fun r =>
      (r.1, vm.give pageCount r)
  | map mapAddr pageCount kernel =>
    (mapMemory src vm.mgr (vm.nodes, vm.phys) mapAddr pageCount kernel).map fun r =>
      (r.1, vm.give (if mapAddr % 0x1000 ≠ 0 then 0 else pageCount) r)
  | free addr parentNull =>
    (freePages src parentNull vm.mgr (vm.nodes, vm.phys) addr).map fun r =>
      (0, ⟨r.1, r.2.1, r.2.2, vm.held.filter (·.1 ≠ addr)⟩)

theorem answered_step (vm : Vm σ) (c : MgrCall) :
    c.step src vm = (c.answered src vm).map (·.2) := by
  cases c with
  | malloc => simp only [MgrCall.step, MgrCall.answered, Option.map_map, Function.comp_def]
  | map => simp only [MgrCall.step, MgrCall.answered, Option.map_map, Function.comp_def]
  | free => simp only [MgrCall.step, MgrCall.answered, Option.map_map, Function.comp_def]

variable {src} {vm vm' : Vm σ} {r : Nat}

/- The loops leave all but memory as it is. -/
theorem foldl_phys (f : Nat → Phys → Nat → Phys) (is : List Nat) (vm : Vm σ) :
    is.foldl (fun vm i => { vm with phys := f vm.mgr.pml4t vm.phys i }) vm =
      { vm with phys := is.foldl (f vm.mgr.pml4t) vm.phys } := by
  induction is generalizing vm with
  | nil => rfl
  | cons i is ih => exact ih _

theorem filling_whole (flags : PageFlags) (pageCount addr : Nat) (vm : Vm σ) :
    Whole (mgrGuard src) (.filling flags pageCount addr 0) vm r vm' ↔ r = addr ∧ vm' =
      ⟨{ vm.mgr with lock := false }, vm.nodes,
        mapFresh vm.phys vm.mgr.pml4t addr pageCount flags, (addr, pageCount) :: vm.held⟩ := by
  rw [whole_loop (Pending.filling flags pageCount addr) (fun _ => rfl)
      (fun i vm less => if_pos less) (fun vm => if_neg (Nat.lt_irrefl _)) (Nat.zero_add _),
    ← List.range_eq_range', foldl_phys (fun pml4t => mapFreshPage pml4t addr flags)]
  exact whole_leave rfl

theorem mapping_whole (flags : PageFlags) (mapAddr pageCount addr : Nat) (vm : Vm σ) :
    Whole (mgrGuard src) (.mapping flags mapAddr pageCount addr 0) vm r vm' ↔ r = addr ∧ vm' =
      ⟨{ vm.mgr with lock := false }, vm.nodes,
        mapRange vm.phys vm.mgr.pml4t addr mapAddr pageCount flags,
        (addr, pageCount) :: vm.held⟩ := by
  rw [whole_loop (Pending.mapping flags mapAddr pageCount addr) (fun _ => rfl)
      (fun i vm less => if_pos less) (fun vm => if_neg (Nat.lt_irrefl _)) (Nat.zero_add _),
    ← List.range_eq_range', foldl_phys (fun pml4t phys i =>
      setPage phys pml4t (blockPage addr i) (blockPage mapAddr i) flags)]
  exact whole_leave rfl

theorem unmapping_whole (parentNull : Bool × Bool) (addr : Nat) (n : AvlNode) (vm : Vm σ) :
    Whole (mgrGuard src) (.unmapping parentNull addr n 0) vm r vm' ↔
      Whole (mgrGuard src) (.merging parentNull addr n)
        { vm with phys := unmapRange vm.phys vm.mgr.pml4t addr n.pageCount } r vm' := by
  rw [whole_loop (Pending.unmapping parentNull addr n) (fun _ => rfl)
      (fun i vm less => if_pos less) (fun vm => if_neg (Nat.lt_irrefl _)) (Nat.zero_add _),
    ← List.range_eq_range',
    foldl_phys (fun pml4t phys i => freePage phys pml4t (blockPage addr i))]
  rfl

theorem some_pair_iff {a : Nat} {b : Vm σ} : some (a, b) = some (r, vm') ↔ r = a ∧ vm' = b := by
  rw [Option.some.injEq, Prod.mk.injEq, eq_comm, @eq_comm _ b]

variable {tree : AvlTree} {pml4t : Nat} {nodes : σ} {phys : Phys} {held : List (Nat × Nat)}

theorem malloc_whole {pageCount : Nat} (write exec kernel : Bool) (some : pageCount ≠ 0) :
    Whole (mgrGuard src) (.start (.malloc pageCount write exec kernel))
        ⟨⟨tree, pml4t, true⟩, nodes, phys, held⟩ r vm' ↔
      (MgrCall.malloc pageCount write exec kernel).answered src
        ⟨⟨tree, pml4t, false⟩, nodes, phys, held⟩ = .some (r, vm') := by
  simp only [MgrCall.answered, mallocPages, if_neg some]
  cases found : allocVirt src ⟨tree, pml4t, true⟩ pageCount (nodes, phys) with
  | none => exact iff_of_false (not_whole rfl (congrArg (Option.map _) found)) (by simp)
  | some q =>
    rw [whole_micro rfl (congrArg (Option.map _) found), filling_whole]
    simp [Vm.give, some, (allocVirt_lock src found).2, eq_comm]

theorem map_whole {mapAddr pageCount : Nat} (kernel : Bool) (some : pageCount ≠ 0)
    (aligned : ¬ mapAddr % 0x1000 ≠ 0) :
    Whole (mgrGuard src) (.start (.map mapAddr pageCount kernel))
        ⟨⟨tree, pml4t, true⟩, nodes, phys, held⟩ r vm' ↔
      (MgrCall.map mapAddr pageCount kernel).answered src
        ⟨⟨tree, pml4t, false⟩, nodes, phys, held⟩ = .some (r, vm') := by
  simp only [MgrCall.answered, mapMemory, if_neg (not_or.mpr ⟨some, aligned⟩), if_neg aligned]
  cases found : allocVirt src ⟨tree, pml4t, true⟩ pageCount (nodes, phys) with
  | none => exact iff_of_false (not_whole rfl (congrArg (Option.map _) found)) (by simp)
  | some q =>
    rw [whole_micro rfl (congrArg (Option.map _) found), mapping_whole]
    simp [Vm.give, some, (allocVirt_lock src found).2, eq_comm]

theorem merging_whole (parentNull : Bool × Bool) (addr : Nat) (n : AvlNode) :
    Whole (mgrGuard src) (.merging parentNull addr n)
        ⟨⟨tree, pml4t, true⟩, nodes, phys, held⟩ r vm' ↔
      ((mergeBelow src parentNull.1 addr n tree (nodes, phys)).bind fun q =>
        (mergeAfter src parentNull.2 q.1 q.2.1 q.2.2).map fun p =>
          (0, (⟨⟨p.1, pml4t, false⟩, p.2.1, p.2.2, held.filter (·.1 ≠ addr)⟩ : Vm σ))) =
        some (r, vm') := by
  cases below : mergeBelow src parentNull.1 addr n tree (nodes, phys) with
  | none => exact iff_of_false (not_whole rfl (congrArg (Option.map _) below)) (by simp)
  | some q =>
    rw [whole_micro rfl (congrArg (Option.map _) below), Option.bind_some]
    cases after : mergeAfter src parentNull.2 q.1 q.2.1 q.2.2 with
    | none => exact iff_of_false (not_whole rfl (congrArg (Option.map _) after)) (by simp)
    | some p =>
      rw [whole_micro rfl (congrArg (Option.map _) after), whole_leave rfl, Option.map_some,
        some_pair_iff]
      rfl

theorem free_whole (addr : Nat) (parentNull : Bool × Bool) :
    Whole (mgrGuard src) (.start (.free addr parentNull))
        ⟨⟨tree, pml4t, true⟩, nodes, phys, held⟩ r vm' ↔
      (MgrCall.free addr parentNull).answered src
        ⟨⟨tree, pml4t, false⟩, nodes, phys, held⟩ = some (r, vm') := by
  simp only [MgrCall.answered, freePages]
  by_cases empty : tree = .nil
  · exact iff_of_false (not_whole rfl (if_pos empty)) (by simp [empty])
  have one : (mgrGuard src).micro (.start (.free addr parentNull))
      ⟨⟨tree, pml4t, true⟩, nodes, phys, held⟩ = _ := if_neg empty
  cases found : avlFind addr tree with
  | none =>
    simp only [found] at one
    rw [whole_micro rfl one, whole_leave rfl]
    simp [empty, eq_comm, mgrGuard, Pending.heldAfter]
  | some n =>
    cases used : n.allocated with
    | false =>
      simp only [found, used] at one
      rw [whole_micro rfl one, whole_leave rfl]
      simp [empty, used, eq_comm, mgrGuard, Pending.heldAfter]
    | true =>
      simp only [found, used] at one
      rw [whole_micro rfl one, unmapping_whole, merging_whole]
      simp [empty, used, Option.map_bind, Function.comp_def]

theorem whole_iff {c : MgrCall} {l : Pending} (unlocked : vm.mgr.lock = false)
    (enters : c.enter = some l) :
    Whole (mgrGuard src) l ((mgrGuard src).lock vm) r vm' ↔
      c.answered src vm = some (r, vm') := by
  obtain ⟨⟨tree, pml4t, lock⟩, nodes, phys, held⟩ := vm
  cases unlocked
  cases c with
  | malloc pageCount write exec kernel =>
    by_cases none : pageCount = 0
    · rw [MgrCall.enter, if_pos none] at enters
      cases enters
    · rw [MgrCall.enter, if_neg none] at enters
      cases enters
      exact malloc_whole write exec kernel none
  | map mapAddr pageCount kernel =>
    by_cases refused : pageCount = 0 ∨ mapAddr % 0x1000 ≠ 0
    · rw [MgrCall.enter, if_pos refused] at enters
      cases enters
    · rw [MgrCall.enter, if_neg refused] at enters
      cases enters
      obtain ⟨some, aligned⟩ := not_or.mp refused
      exact map_whole kernel some aligned
  | free addr parentNull =>
    cases enters
    exact free_whole addr parentNull

theorem answered_refused {c : MgrCall} (refused : c.enter = none) :
    c.answered src vm = some (0, vm) := by
  cases c with
  | malloc pageCount write exec kernel =>
    by_cases none : pageCount = 0
    · simp [MgrCall.answered, mallocPages, none, Vm.give]
    · rw [MgrCall.enter, if_neg none] at refused
      cases refused
  | map mapAddr pageCount kernel =>
    by_cases turned : pageCount = 0 ∨ mapAddr % 0x1000 ≠ 0
    · have none : (if mapAddr % 0x1000 ≠ 0 then 0 else pageCount) = 0 := by
        split <;> omega
      simp [MgrCall.answered, mapMemory, if_pos turned, none, Vm.give]
    · rw [MgrCall.enter, if_neg turned] at refused
      cases refused
  | free => cases refused

theorem alone_answered {P : Vm σ → MgrCall → Prop} {c : MgrCall}
    (alone : Alone (mgrGuard src) P vm c r vm') : c.answered src vm = some (r, vm') := by
  cases alone with
  | refused none => exact answered_refused none
  | whole enters free _ run => exact (whole_iff free enters).mp run

end Alone

section Runs

variable {σ T : Type} (src : NodeSource σ)

/-- A call of a log, if its answer is the one the log has. -/
def logStep (vm : Vm σ) (e : T × MgrCall × Nat) : Option (Vm σ) :=
  (e.2.1.answered src vm).bind fun r => if r.1 = e.2.2 then some r.2 else none

variable {src} {P : Vm σ → MgrCall → Prop} {vm base : Vm σ} {log : List (T × MgrCall × Nat)}

theorem serial_log (serial : Serial (mgrGuard src) P vm log base) :
    run (logStep src) vm log = some base := by
  induction serial with
  | nil => rfl
  | snoc _ one ih => simp [run_append, ih, run, logStep, alone_answered one]

variable [DecidableEq T]

/-- Whatever the cores call and however they are scheduled, never are two of them between
lock_mgr and unlock_mgr, and the calls that have returned have done and answered what they
do and answer one after the other, in the order in which they have returned; a core that is
inside is on its way to what its call does next in that order. -/
theorem cores_serialized (unlocked : vm.mgr.lock = false) (events : List (Event T MgrCall))
    (x : State (Vm σ) Pending MgrCall Nat T)
    (back : run (step (mgrGuard src)) (State.start vm) events = some x) :
    (∀ t u c d l m, x.threads t = .inside c l → x.threads u = .inside d m → t = u) ∧
    (x.shared.mgr.lock = true ↔ ∃ t c l, x.threads t = .inside c l) ∧
    ∃ base, run (logStep src) vm x.log = some base ∧
      (x.shared.mgr.lock = false → x.shared = base) ∧
      ∀ t c l, x.threads t = .inside c l → ∀ r vm', c.answered src base = some (r, vm') →
        Whole (mgrGuard src) l x.shared r vm' := by
  have finds : All (step (mgrGuard src)) (Admits (mgrGuard src) fun _ _ => True)
      (State.start vm) events := by
    refine all_always (fun e _ y => ?_) _
    cases e with
    | call => trivial
    | go => exact fun _ _ _ _ => trivial
  obtain ⟨base, ser⟩ := run_serialized unlocked (List.prefix_refl _) finds back
  refine ⟨fun t u c d l m => ser.exclusive, ser.locked_iff, base, serial_log ser.serial,
    ser.at_rest, fun t c l here r vm' next => ?_⟩
  obtain ⟨-, l₀, enters, got⟩ := ser.part here
  exact ((whole_iff ser.unlocked enters).mpr next).rest got

theorem cores_serialized_two :
    ∃ x : State (Vm Nat) Pending MgrCall Nat Bool,
      run (step (mgrGuard counter)) (State.start threePages.vm)
        [.call true (.malloc 1 true false true), .call false (.malloc 1 true false true),
          .go true, .go false, .go true] = some x ∧
      x.shared.mgr.lock = true ∧ ∀ u d m, x.threads u = .inside d m → true = u := by
  obtain ⟨x, back⟩ : ∃ x, run (step (mgrGuard counter)) (State.start threePages.vm)
      [.call true (.malloc 1 true false true), .call false (.malloc 1 true false true),
        .go true, .go false, .go true] = some x := ⟨_, rfl⟩
  have here : ∃ c l, x.threads true = .inside c l := by
    cases back
    exact ⟨_, _, rfl⟩
  obtain ⟨one, locked, -⟩ := cores_serialized rfl _ x back
  obtain ⟨c, l, here⟩ := here
  exact ⟨x, back, locked.mpr ⟨true, c, l, here⟩, fun u d m inside => one true u c d l m here inside⟩

end Runs

end Gapxos
