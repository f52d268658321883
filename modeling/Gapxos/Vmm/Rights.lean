import Gapxos.Vmm.Walk

/-! Effective access rights over runs of set_page and free_page on one address space.
Flags are OR-ed into entries that many pages share, so the argument is about every page
at once: a shared entry may widen, the rights of a sibling page may not. -/
namespace Gapxos
open Radix

/-- What the hardware grants for a page: its frame and its rights over all levels. -/
structure Xlate where
  frame : Nat
  write : Bool
  user : Bool
  noExec : Bool
deriving DecidableEq, Repr

def effective (v : Nat) (t : List Word) : Option Xlate :=
  (translate v t).map fun f => ⟨f, t.all writable, t.all userBit, t.any noExec⟩

def view (m : Mem) (cr3 v : Nat) : Option Xlate := effective v (trace child m cr3 (path v))

/-- The bits of a present leaf are contained in every entry on its walk. -/
def Contained (t : List Word) : Prop :=
  ∀ e, t.getLast? = some e → present e = true → ∀ u ∈ t,
    present u = true ∧ (writable e = true → writable u = true) ∧
      (userBit e = true → userBit u = true)

theorem translate_congr {v : Nat} {t t' : List Word} (len : t.length = t'.length)
    (last : t.getLast? = t'.getLast?) : translate v t = translate v t' := by
  match t, t', len with
  | [], [], _ => rfl
  | [_], [_], _ => rfl
  | [_, _], [_, _], _ => simp_all [translate]
  | [_, _, _], [_, _, _], _ => simp_all [translate]
  | [_, _, _, _], [_, _, _, _], _ => simp_all [translate]
  | _ :: _ :: _ :: _ :: _ :: _, _ :: _ :: _ :: _ :: _ :: _, _ => rfl

theorem translate_last {v f : Nat} {t : List Word} (h : translate v t = some f) :
    ∃ e, t.getLast? = some e ∧ present e = true := by
  match t with
  | [_, e] =>
    simp only [translate, Option.ite_none_right_eq_some, Bool.and_eq_true] at h
    exact ⟨e, rfl, h.1.1⟩
  | [_, _, e] =>
    simp only [translate, Option.ite_none_right_eq_some, Bool.and_eq_true] at h
    exact ⟨e, rfl, h.1.1⟩
  | [_, _, _, e] =>
    simp only [translate, Option.ite_none_right_eq_some] at h
    exact ⟨e, rfl, h.1⟩
  | [] | [_] | _ :: _ :: _ :: _ :: _ :: _ => cases h

theorem contained_all {t : List Word} {e : Word} (cont : Contained t)
    (last : t.getLast? = some e) (hp : present e = true) :
    t.all writable = writable e ∧ t.all userBit = userBit e := by
  have member : e ∈ t := List.mem_of_getLast? last
  have bits := cont e last hp
  constructor
  · apply Bool.eq_iff_iff.mpr
    rw [List.all_eq_true]
    exact ⟨fun h => h e member, fun h u hu => (bits u hu).2.1 h⟩
  · apply Bool.eq_iff_iff.mpr
    rw [List.all_eq_true]
    exact ⟨fun h => h e member, fun h u hu => (bits u hu).2.2 h⟩

theorem widened_source {fl : Word} {t t' : List Word}
    (h : List.Forall₂ (fun a b => b = a ∨ b = a ||| fl) t t') :
    ∀ b ∈ t', ∃ a ∈ t, b = a ∨ b = a ||| fl := by
  induction h with
  | nil => simp
  | cons head _ ih =>
    intro b hb
    rcases List.mem_cons.mp hb with rfl | hb
    · exact ⟨_, List.mem_cons_self, head⟩
    · obtain ⟨a, ha, step⟩ := ih b hb
      exact ⟨a, List.mem_cons_of_mem _ ha, step⟩

theorem widened_noExec {fl : Word} {t t' : List Word} (nx : noExec fl = false)
    (h : List.Forall₂ (fun a b => b = a ∨ b = a ||| fl) t t') :
    t'.any noExec = t.any noExec := by
  induction h with
  | nil => rfl
  | cons head _ ih =>
    rcases head with rfl | rfl
    · simp [ih]
    · unfold noExec at nx ih ⊢
      simp only [List.any_cons, ih, BitVec.getLsbD_or, nx, Bool.or_false]

theorem grown_bit {i : Nat} {a b fl : Word} (h : b = a ∨ b = a ||| fl) (bit : a.getLsbD i = true) :
    b.getLsbD i = true := by
  rcases h with rfl | rfl
  · exact bit
  · simp [bit]

theorem Contained.widen {fl : Word} {t t' : List Word} (cont : Contained t)
    (h : Widened fl t t') : Contained t' := by
  intro e last hp u hu
  obtain ⟨a, ha, step⟩ := widened_source h.1 u hu
  have bits := cont e (h.2.trans last) hp a ha
  exact ⟨grown_bit step bits.1, fun hw => grown_bit step (bits.2.1 hw),
    fun hw => grown_bit step (bits.2.2 hw)⟩

theorem effective_widen {v : Nat} {fl : Word} {t t' : List Word} (cont : Contained t)
    (nx : noExec fl = false) (h : Widened fl t t') : effective v t' = effective v t := by
  have same : translate v t' = translate v t :=
    translate_congr h.1.length_eq.symm h.2.symm
  unfold effective
  rw [same]
  cases found : translate v t with
  | none => rfl
  | some f =>
    obtain ⟨e, last, hp⟩ := translate_last found
    have before := contained_all cont last hp
    have after := contained_all (cont.widen h) (h.2.symm.trans last) hp
    simp only [Option.map_some, before.1, before.2, after.1, after.2, widened_noExec nx h.1]

/-- One call on the address space whose PML4 table is `pml4t`. -/
inductive PageCall where
  | set (vaddr paddr : Nat) (flags : PageFlags)
  | free (vaddr : Nat)

def PageCall.vaddr : PageCall → Nat
  | .set v _ _ => v
  | .free v => v

def PageCall.step (pml4t : Nat) (s : Phys) : PageCall → Phys
  | .set v paddr flags => setPage s pml4t v paddr flags
  | .free v => freePage s pml4t v

/-- What a call says about its page: the last word on that page until the next call on it. -/
def PageCall.grant : PageCall → Option Xlate
  | .set _ paddr flags => if flags.present
      then some ⟨paddr / 4096, flags.write, !flags.kernel, !flags.exec⟩ else none
  | .free _ => none

/-- The physical address is one that the kernel's 48-bit mask keeps. -/
def PageCall.Low : PageCall → Prop
  | .set _ paddr _ => paddr < 2 ^ 48
  | .free _ => True

/- The address space as its users see it: one grant per page, no shared entries. -/
def regrant (space : Nat → Option Xlate) (c : PageCall) : Nat → Option Xlate :=
  fun w => if pageOf w = pageOf c.vaddr then c.grant else space w

/- The upper-level entries of `v` are present tables without the NX bit, at frames the
kernel's 48-bit mask keeps. -/
structure CleanPath (m : Mem) (cr3 v : Nat) : Prop where
  upper : UpperPresent m cr3 v
  entries : ∀ e ∈ trace child m cr3 ((path v).take 3), noExec e = false ∧ hwFrame e < 2 ^ 36

structure RightsInv (m : Mem) (cr3 : Nat) (used : List Nat) : Prop where
  tables : TableTree m cr3
  contained : ∀ w, Contained (trace child m cr3 (path w))
  clean : ∀ v ∈ used, CleanPath m cr3 v

theorem path_split (v : Nat) : path v = (path v).take 3 ++ [Fin.ofNat 512 (v / 2 ^ 12)] := rfl

theorem trace_upper {m : Mem} {cr3 v pt : Nat}
    (upper : tableAt child m cr3 ((path v).take 3) = some pt) :
    ∃ a b c, trace child m cr3 ((path v).take 3) = [a, b, c] :=
  List.length_eq_three.mp (length_trace upper)

theorem trace_take {m : Mem} {cr3 v pt : Nat}
    (upper : tableAt child m cr3 ((path v).take 3) = some pt) :
    ∃ e, trace child m cr3 (path v) = trace child m cr3 ((path v).take 3) ++ [e] := by
  refine ⟨m pt (Fin.ofNat 512 (v / 2 ^ 12)), ?_⟩
  nth_rewrite 1 [path_split v]
  rw [trace_append upper]
  simp only [trace]
  cases child (m pt (Fin.ofNat 512 (v / 2 ^ 12))) <;> rfl

theorem CleanPath.grow {fl : Word} {cr3 v : Nat} {s s' : Phys} (level : LevelSpec fl cr3 s s')
    (flag : FlagWord fl) (nx : noExec fl = false) (clean : CleanPath s.mem cr3 v) :
    CleanPath s'.mem cr3 v := by
  obtain ⟨⟨pt, upper⟩, bits⟩ := clean
  have upper' := (level.paths _ _).trans upper
  obtain ⟨e, before⟩ := trace_take upper
  obtain ⟨e', after⟩ := trace_take upper'
  refine ⟨⟨pt, upper'⟩, ?_⟩
  have wide := (level.walks (path v) rfl).1
  rw [before, after] at wide
  have len := wide.length_eq
  simp only [List.length_append, List.length_singleton, Nat.add_right_cancel_iff] at len
  have front := List.forall₂_take_append _ _ _ wide
  rw [← len, List.take_left] at front
  intro u hu
  obtain ⟨a, ha, step⟩ := widened_source front u hu
  have old := bits a ha
  unfold noExec at nx old ⊢
  rcases step with rfl | rfl
  · exact old
  · exact ⟨by rw [BitVec.getLsbD_or, old.1, nx, Bool.or_false],
      by rw [hwFrame_or flag.frame]; exact old.2⟩

theorem bit_of_has {i : Nat} {a fl : Word} (has : a ||| fl = a) (bit : fl.getLsbD i = true) :
    a.getLsbD i = true := by
  rw [← has, BitVec.getLsbD_or, bit, Bool.or_true]

/-- The grant a leaf entry stands for when all entries above it contain its bits. -/
def entryGrant (e : Word) : Option Xlate :=
  if present e then some ⟨hwFrame e, writable e, userBit e, noExec e⟩ else none

/- A leaf entry written under entries that already carry its flags: both calls do this,
set_page with its own flags and free_page with the empty entry and no flags. -/
theorem leaf_granted {v : Nat} {t : List Word} {e fl : Word} (three : t.length = 3)
    (has : ∀ u ∈ t, u ||| fl = u) (clean : ∀ u ∈ t, noExec u = false)
    (sub : ∀ i ∈ [0, 1, 2], e.getLsbD i = true → fl.getLsbD i = true) :
    Contained (t ++ [e]) ∧ effective v (t ++ [e]) = entryGrant e := by
  have cont : Contained (t ++ [e]) := by
    intro x last hp u hu
    have leaf : x = e := by simpa using last.symm
    subst x
    rcases List.mem_append.mp hu with upper | leaf
    · have carries : ∀ i ∈ [0, 1, 2], e.getLsbD i = true → u.getLsbD i = true :=
        fun i hi bit => bit_of_has (has u upper) (sub i hi bit)
      exact ⟨carries 0 (by simp) hp, carries 1 (by simp), carries 2 (by simp)⟩
    · rw [List.mem_singleton.mp leaf]
      exact ⟨hp, id, id⟩
  refine ⟨cont, ?_⟩
  have frame : translate v (t ++ [e]) = if present e then some (hwFrame e) else none := by
    match t, three with
    | [_, _, _], _ => rfl
  unfold effective entryGrant
  rw [frame]
  by_cases hp : present e = true
  · have all := contained_all (e := e) cont (by simp) hp
    have nx : (t ++ [e]).any noExec = noExec e := by
      have none : t.any noExec = false := List.any_eq_false.mpr fun u hu => by simp [clean u hu]
      rw [List.any_append, none, Bool.false_or, List.any_cons, List.any_nil, Bool.or_false]
    simp only [hp, if_true, Option.map_some, all.1, all.2, nx]
  · simp [hp]

theorem entry_written {s s' : Phys} {cr3 v pt : Nat} {used : List Nat} {e fl : Word}
    (inv : RightsInv s.mem cr3 used) (member : v ∈ used) (level : LevelSpec fl cr3 s s')
    (flag : FlagWord fl) (nx : noExec fl = false)
    (upper : tableAt child s.mem cr3 ((path v).take 3) = some pt)
    (has : ∀ u ∈ trace child s'.mem cr3 ((path v).take 3), u ||| fl = u)
    (sub : ∀ i ∈ [0, 1, 2], e.getLsbD i = true → fl.getLsbD i = true) :
    let m := store s'.mem pt (Fin.ofNat 512 (v / 2 ^ 12)) e
    RightsInv m cr3 used ∧
      ∀ w, view m cr3 w = if pageOf w = pageOf v then entryGrant e else view s.mem cr3 w := by
  intro m
  have tree := level.tables
  have upper' := (level.paths _ _).trans upper
  have walks := leaf_store (e := e) tree upper'
  have clean' : ∀ u ∈ used, CleanPath s'.mem cr3 u :=
    fun u hu => (inv.clean u hu).grow level flag nx
  have own : ∀ w, pageOf w = pageOf v →
      trace child m cr3 (path w) = trace child s'.mem cr3 ((path v).take 3) ++ [e] := by
    intro w same
    rw [(path_eq_iff w v).mpr same, walks.2]
  have granted := fun w => leaf_granted (v := w) (length_trace upper') has
    (fun u hu => ((clean' v member).entries u hu).1) sub
  refine ⟨⟨tree_store_leaf e tree upper' rfl, ?_, ?_⟩, ?_⟩
  · intro w
    by_cases same : pageOf w = pageOf v
    · rw [own w same]
      exact (granted w).1
    · rw [walks.1 w same]
      exact (inv.contained w).widen (level.walks _ rfl)
  · intro u hu
    have off : ¬ (path v).take 3 ++ [Fin.ofNat 512 (v / 2 ^ 12)] <+: (path u).take 3 := by
      intro inside
      exact absurd inside.length_le (by simp [path])
    obtain ⟨⟨f, at_u⟩, bits⟩ := clean' u hu
    refine ⟨⟨f, (tableAt_store_leaf e tree upper' rfl (by simp [path])).trans at_u⟩, ?_⟩
    rw [trace_store e tree upper' (by simp [path]) (by simp [path]) off]
    exact bits
  · intro w
    by_cases same : pageOf w = pageOf v
    · rw [if_pos same, view, own w same]
      exact (granted w).2
    · rw [if_neg same, view, walks.1 w same]
      exact effective_widen (inv.contained w) nx (level.walks _ rfl)

theorem zero_flagWord : FlagWord 0 := ⟨by decide, by decide⟩

theorem PageCall.step_spec {pml4t : Nat} {s : Phys} {used : List Nat} {c : PageCall}
    (inv : RightsInv s.mem (pml4t / 4096) used) (member : c.vaddr ∈ used) (fits : c.Low) :
    RightsInv (c.step pml4t s).mem (pml4t / 4096) used ∧
      view (c.step pml4t s).mem (pml4t / 4096) = regrant (view s.mem (pml4t / 4096)) c := by
  obtain ⟨⟨pt, upper⟩, bits⟩ := inv.clean c.vaddr member
  have low : LowWalk (trace child s.mem (pml4t / 4096) ((path c.vaddr).take 3)) :=
    fun e he _ => (bits e he).2
  cases c with
  | set v paddr flags =>
    have leaf := leafEntry_bits paddr flags
    have table := tableFlags_bits flags
    have flag := tableFlags_flagWord flags
    obtain ⟨s', eq, level, has⟩ :=
      openPath_present inv.tables flag (q := []) rfl (by simp [path]) upper low
    have sub : ∀ i ∈ [0, 1, 2], (leafEntry paddr flags).getLsbD i = true →
        (tableFlags flags).getLsbD i = true := by
      simp only [present, writable, userBit] at leaf table
      simp only [List.mem_cons, List.not_mem_nil, or_false, forall_eq_or_imp, forall_eq, leaf,
        table]
      exact ⟨id, id, id⟩
    have step := entry_written inv member level flag table.2.2.2 upper has sub
    have mem : (PageCall.step pml4t s (.set v paddr flags)).mem =
        store s'.mem pt (Fin.ofNat 512 (v / 2 ^ 12)) (leafEntry paddr flags) := by
      simp only [PageCall.vaddr] at eq
      simp only [PageCall.step, setPage, getPageTableEntry_masked, eq, Phys.write_mem]
    rw [mem]
    refine ⟨step.1, funext fun w => (step.2 w).trans ?_⟩
    have frame : hwFrame (leafEntry paddr flags) = paddr / 4096 := by
      have : paddr < 2 ^ 48 := fits
      rw [leafEntry_frame]
      omega
    simp only [regrant, PageCall.vaddr, PageCall.grant, entryGrant, leaf, frame]
    rfl
  | free v =>
    obtain ⟨s', eq, level, has⟩ :=
      openPath_present inv.tables zero_flagWord (q := []) rfl (by simp [path]) upper low
    have step := entry_written (e := 0) inv member level zero_flagWord (by decide) upper has
      (by simp)
    have mem : (PageCall.step pml4t s (.free v)).mem =
        store s'.mem pt (Fin.ofNat 512 (v / 2 ^ 12)) 0 := by
      simp only [PageCall.vaddr] at eq
      simp only [PageCall.step, freePage, getPageTableEntry_masked, eq, Phys.write_mem]
      split <;> rfl
    rw [mem]
    exact ⟨step.1, funext fun w => (step.2 w).trans rfl⟩

theorem run_spec {pml4t : Nat} {s : Phys} {used : List Nat} (calls : List PageCall)
    (inv : RightsInv s.mem (pml4t / 4096) used) (member : ∀ c ∈ calls, c.vaddr ∈ used)
    (fits : ∀ c ∈ calls, c.Low) :
    RightsInv (calls.foldl (PageCall.step pml4t) s).mem (pml4t / 4096) used ∧
      view (calls.foldl (PageCall.step pml4t) s).mem (pml4t / 4096) =
        calls.foldl regrant (view s.mem (pml4t / 4096)) := by
  induction calls generalizing s with
  | nil => exact ⟨inv, rfl⟩
  | cons c calls ih =>
    have step := PageCall.step_spec inv (member c List.mem_cons_self) (fits c List.mem_cons_self)
    have rest := ih step.1 (fun d hd => member d (List.mem_cons_of_mem c hd))
      fun d hd => fits d (List.mem_cons_of_mem c hd)
    exact ⟨rest.1, by rw [List.foldl_cons, rest.2, step.2, List.foldl_cons]⟩

/-- The last call of a run on the page of `w`, if there is one. -/
def lastOn (w : Nat) (calls : List PageCall) : Option PageCall :=
  calls.reverse.find? fun c => pageOf w = pageOf c.vaddr

theorem foldl_regrant (space : Nat → Option Xlate) (calls : List PageCall) (w : Nat) :
    calls.foldl regrant space w =
      match lastOn w calls with
      | some c => c.grant
      | none => space w := by
  induction calls using List.reverseRecOn with
  | nil => rfl
  | append_singleton calls c ih =>
    simp only [List.foldl_append, List.foldl_cons, List.foldl_nil, regrant, lastOn,
      List.reverse_append, List.reverse_singleton, List.singleton_append, List.find?_cons]
    by_cases same : pageOf w = pageOf c.vaddr
    · simp [same]
    · simp only [same, if_false, decide_false]
      exact ih

/-- Every run on pages whose upper tables exist: containment survives each call, and each
page has the frame and rights of the last call on it, or those it started with. -/
theorem rights_of_last_call (pml4t : Nat) (s : Phys) (calls : List PageCall)
    (tables : TableTree s.mem (pml4t / 4096))
    (contained : ∀ w, Contained (trace child s.mem (pml4t / 4096) (path w)))
    (clean : ∀ c ∈ calls, CleanPath s.mem (pml4t / 4096) c.vaddr)
    (fits : ∀ c ∈ calls, c.Low) :
    let s' := calls.foldl (PageCall.step pml4t) s
    (∀ w, Contained (trace child s'.mem (pml4t / 4096) (path w))) ∧
      ∀ w, view s'.mem (pml4t / 4096) w =
        match lastOn w calls with
        | some c => c.grant
        | none => view s.mem (pml4t / 4096) w := by
  intro s'
  have inv : RightsInv s.mem (pml4t / 4096) (calls.map PageCall.vaddr) := by
    refine ⟨tables, contained, ?_⟩
    intro v hv
    obtain ⟨c, hc, rfl⟩ := List.mem_map.mp hv
    exact clean c hc
  have run := run_spec calls inv (fun c hc => List.mem_map.mpr ⟨c, hc, rfl⟩) fits
  exact ⟨run.1.contained, fun w => (congrFun run.2 w).trans (foldl_regrant _ calls w)⟩

theorem chainMem_last {root : Nat} {p : List (Fin 512)} {e : Word} (ends : root + p.length = 5)
    (start : 1 ≤ root) (last : (trace child chainMem root p).getLast? = some e) : e = 0 := by
  induction p generalizing root with
  | nil => simp [trace] at last
  | cons i p ih =>
    rw [trace, chainMem_child] at last
    simp only [List.length_cons] at ends
    by_cases edge : i = 0 ∧ 1 ≤ root ∧ root ≤ 3
    · have more : trace child chainMem (root + 1) p ≠ [] := by
        apply trace_ne_nil
        rintro rfl
        simp at ends
        omega
      simp only [if_pos edge] at last
      have rest : (trace child chainMem (root + 1) p).getLast? = some e := by
        simpa [List.getLast?_cons, List.getLast?_eq_some_getLast more] using last
      exact ih (by omega) (by omega) rest
    · simp only [if_neg edge, List.getLast?_singleton, Option.some.injEq] at last
      rw [← last, chainMem, if_neg edge]

theorem chainMem_contained (w : Nat) : Contained (trace child chainMem 1 (path w)) := by
  intro e last hp
  rw [chainMem_last rfl (Nat.le_refl 1) last] at hp
  cases hp

theorem chainMem_clean {v : Nat} (h : (path v).take 3 = [0, 0, 0]) : CleanPath chainMem 1 v := by
  refine ⟨⟨4, ?_⟩, ?_⟩
  · rw [h]
    simp [tableAt, chainMem_child]
  · have walk : trace child chainMem 1 [0, 0, 0] = [chainMem 1 0, chainMem 2 0, chainMem 3 0] := by
      simp [trace, chainMem_child]
    rw [h, walk]
    simp [chainMem, noExec, hwFrame]

theorem rights_of_last_call_chain :
    let calls := [PageCall.set 0x1000 0x5000 ⟨true, false, false, true, true⟩,
      .set 0x2000 0x6000 ⟨false, true, true, false, true⟩]
    let s := calls.foldl (PageCall.step 4096) ⟨chainMem, [], 0⟩
    view s.mem 1 0x1000 = some ⟨5, true, true, true⟩ ∧
      view s.mem 1 0x2000 = some ⟨6, false, false, false⟩ := by
  intro calls s
  have clean : ∀ c ∈ calls, CleanPath chainMem (4096 / 4096) c.vaddr := by
    simp only [calls, List.mem_cons, List.not_mem_nil, or_false, forall_eq_or_imp, forall_eq]
    exact ⟨chainMem_clean rfl, chainMem_clean rfl⟩
  have fits : ∀ c ∈ calls, c.Low := by
    simp only [calls, List.mem_cons, List.not_mem_nil, or_false, forall_eq_or_imp, forall_eq]
    exact ⟨show 0x5000 < 2 ^ 48 by decide, show 0x6000 < 2 ^ 48 by decide⟩
  have run := rights_of_last_call 4096 ⟨chainMem, [], 0⟩ calls chainMem_tree chainMem_contained
    clean fits
  exact ⟨run.2 0x1000, run.2 0x2000⟩

/-- A physical address of more than 48 bits is cut: what is mapped is another page. -/
theorem rights_cut_address :
    TableTree chainMem 1 ∧ (∀ w, Contained (trace child chainMem 1 (path w))) ∧
      CleanPath chainMem 1 0x1000 ∧
      let call := PageCall.set 0x1000 (2 ^ 48 + 0x5000) ⟨true, false, false, true, true⟩
      call.grant = some ⟨2 ^ 36 + 5, true, true, true⟩ ∧
        view (call.step 4096 ⟨chainMem, [], 0⟩).mem 1 0x1000 = some ⟨5, true, true, true⟩ := by
  refine ⟨chainMem_tree, chainMem_contained, chainMem_clean rfl, ?_, ?_⟩
  · decide
  · decide

end Gapxos
