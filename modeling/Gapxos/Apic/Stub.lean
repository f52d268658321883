import Gapxos.Apic.FarJump
import Gapxos.Apic.Start

/-! x64_stub, behind the far jump. A processor that gets there takes the stack of its ap_data
and enters the kernel; the first one does. The phases of a processor that is being started are
places in the payload, and what it does to the flag and the stack field is what the code does. -/
namespace Gapxos
open Bytes Runs

/- The instructions of the stub up to the last one. -/
def stubCode : List (Instr × Nat) :=
  [(.movwSiAx, 3), (.xorqRsi, 3), (.movwAxSi, 3), (.movqRsp ApData.stack, 4), (.movqRbp, 3),
    (.movqRax ApData.krnEntry, 4)]

def listed64 : Nat → List (Instr × Nat) → Bool
  | _, [] => true
  | off, (i, len) :: rest => 3 ≤ off && off + 6 ≤ apInitPayloadLen &&
      decode64 (codeFrom off) = some (i, len) && listed64 (off + len) rest

/-- Instructions that only change registers, and go on behind themselves. -/
def Instr.straight : Instr → Bool
  | .movwSiAx | .xorqRsi | .movwAxSi | .movqRsp _ | .movqRbp | .movqRax _ => true
  | _ => false

/-- The registers after an instruction. -/
def Ap.after (mem : Memory) (ap : Ap) (i : Instr × Nat) : Ap :=
  (exec mem { ap with ip := ap.ip + i.2 } i.1).2

section Stub

variable {location off : Nat} {mem : Memory} {ap : Ap}

theorem exec_straight {i : Instr} (straight : i.straight = true) (mem : Memory) (ap : Ap) :
    ∃ ap', exec mem ap i = (mem, ap') ∧ ap'.long = ap.long ∧ ap'.ip = ap.ip := by
  cases i
  case movwSiAx | xorqRsi | movwAxSi | movqRsp | movqRbp | movqRax => exact ⟨_, rfl, rfl, rfl⟩
  all_goals cases straight

theorem apSteps_straight {is : List (Instr × Nat)} (code : PayloadAt location mem)
    (long : ap.long = true) (ip : ap.ip = location + off) (code_ : listed64 off is = true)
    (straight : ∀ i ∈ is, i.1.straight = true) :
    apSteps location is.length (mem, ap) = some (mem, is.foldl (Ap.after mem) ap) ∧
      (is.foldl (Ap.after mem) ap).long = true ∧
      (is.foldl (Ap.after mem) ap).ip = location + (off + (is.map Prod.snd).sum) := by
  induction is generalizing off ap with
  | nil => exact ⟨rfl, long, ip⟩
  | cons i is ih =>
    simp only [listed64, Bool.and_eq_true, decide_eq_true_eq] at code_
    obtain ⟨⟨⟨behind, inside⟩, decoded⟩, rest⟩ := code_
    obtain ⟨first, others⟩ := List.forall_mem_cons.mp straight
    obtain ⟨ap', done, long', ip'⟩ := exec_straight first mem { ap with ip := ap.ip + i.2 }
    have after : ap.after mem i = ap' := by rw [Ap.after, done]
    have next : ap'.ip = location + (off + i.2) := by rw [ip', ip, Nat.add_assoc]
    have step : apStep location (mem, ap) = some (mem, ap') := by
      have decoded' : decode64 (fetch mem ap.ip) = some (i.1, i.2) := by
        rw [ip, fetch_code code behind inside, decoded]
      rw [apStep, if_pos long, decoded', Option.bind_eq_bind, Option.bind_some]
      exact congrArg some done
    obtain ⟨run, last, atLast⟩ := ih (long'.trans long) next rest others
    rw [List.foldl_cons, after]
    refine ⟨?_, last, ?_⟩
    · rw [List.length_cons, apSteps, step, Option.bind_some, run]
    · rw [atLast, List.map_cons, List.sum_cons, Nat.add_assoc off]

theorem apStep_jmpq (code : PayloadAt location mem) (long : ap.long = true)
    (ip : ap.ip = location + 89) :
    apStep location (mem, ap) = some (mem, { ap with ip := ap.rax }) := by
  have first : mem (location + 89) = 0xff := code 89 (by decide)
  have second : mem (location + 89 + 1) = 0xe0 := code 90 (by decide)
  have bytes : fetch mem (location + 89) = 0xff :: 0xe0 :: (fetch mem (location + 89)).drop 2 := by
    show (mem (location + 89)).toNat :: (mem (location + 89 + 1)).toNat :: _ = _
    rw [first, second]
    rfl
  simp only [apStep, long, if_true, ip]
  rw [bytes, decode64]
  rfl

theorem apSteps_stub (code : PayloadAt location mem)
    (at_ : StubAt location (location + x64Stub) ap) :
    ∃ ap', apSteps location 7 (mem, ap) = some (mem, ap') ∧
      ap'.ip = read mem (payloadData location + ApData.krnEntry) 8 ∧
      ap'.rsp = read mem (payloadData location + ApData.stack) 8 ∧ ap'.rbp = ap'.rsp := by
  obtain ⟨run, long, ip⟩ := apSteps_straight code at_.long at_.ip
    (show listed64 x64Stub stubCode = true by decide) (by decide)
  have last := apStep_jmpq code long ip
  have si : setLow 0 (setLow ap.rax ap.rsi) = payloadData location := by
    rw [← at_.si]
    unfold setLow
    omega
  have whole : apSteps location 7 (mem, ap) = some (mem, { stubCode.foldl (Ap.after mem) ap with
      ip := (stubCode.foldl (Ap.after mem) ap).rax }) := by
    rw [show 7 = stubCode.length + 1 from rfl, apSteps_add, run, Option.bind_some, apSteps, last,
      Option.bind_some, apSteps]
  refine ⟨_, whole, ?_, ?_, rfl⟩
  · show read mem (setLow 0 (setLow ap.rax ap.rsi) + 0xe) 8 = _
    rw [si]
    rfl
  · show read mem (setLow 0 (setLow ap.rax ap.rsi) + 0x17) 8 = _
    rw [si]
    rfl

end Stub

/- The fields of ap_data that the kernel has written are still there behind the jump. -/
theorem jumped_stack (location stack : Nat) (mem : Memory) :
    read (jumped location stack mem) (payloadData location + ApData.stack) 8 =
      stack % 2 ^ 64 := by
  unfold jumped stubAdded cpuStarted ApData.startAddr ApData.hasStarted ApData.stack
  rw [read_write_other (by omega), read_write_other (by omega), read_write_same]
  rfl

theorem jumped_krnEntry (location pml4t entryPoint stack : Nat) (mem : Memory) :
    read (jumped location stack (cpuInitApPayload location pml4t entryPoint mem))
      (payloadData location + ApData.krnEntry) 8 = entryPoint % 2 ^ 64 := by
  unfold jumped stubAdded cpuStarted cpuInitApPayload ApData.startAddr ApData.hasStarted
    ApData.stack ApData.krnEntry ApData.tmpGdtBase ApData.tmpGdtLimit ApData.codeSelector
  dsimp only
  rw [read_write_other (by omega), read_write_other (by omega), read_write_other (by omega),
    read_write_other (by omega), read_write_other (by omega), read_write_other (by omega),
    read_write_other (by omega), read_write_other (by omega), read_write_same]
  rfl

theorem first_ap_enters (location pml4t entryPoint : Nat) (mem : Memory) (c : ApStart)
    (page : location % 4096 = 0) (low : location < 0x10000) :
    ∃ x ap, startAp location (cpuInitApPayload location pml4t entryPoint mem) c = some x ∧
      apSteps location 7 x = some (x.1, ap) ∧ ap.ip = entryPoint % 2 ^ 64 ∧
      ap.rsp = c.stack % 2 ^ 64 ∧ ap.rbp = ap.rsp := by
  have code := cpuInitApPayload_code location pml4t entryPoint mem
  obtain ⟨ap, start, stub⟩ := startAp_jumps code (by omega) c
  have target : (location % 2 ^ 16 + x64Stub) % 2 ^ 16 = location + x64Stub := by
    unfold x64Stub
    omega
  rw [cpuInitApPayload_startAddr, target] at stub
  obtain ⟨ap', run, ip, rsp, rbp⟩ := apSteps_stub (code.jumped c.stack) stub
  rw [jumped_krnEntry] at ip
  rw [jumped_stack] at rsp
  exact ⟨_, ap', start, run, ip, rsp, rbp⟩

section Phases

variable {location : Nat} {mem : Memory} {ap : Ap}

/-- Where the payload is in each phase. A processor that is off is nowhere, and what it has read
of the stack in between is not seen from outside. -/
def ApAt (location : Nat) (ap : Ap) : ApPhase → Prop
  | .booting => ap.long = false ∧ ap.ip = 0
  | .spinning => RealAt location 7 ap
  | .reading got => got = [] ∧ RealAt location 13 ap
  | .running stack => ap.rsp = stack ∧ ap.rbp = stack
  | .off => False

/-- The flag and the stack field as the processors of `s` see them. -/
structure Shared (location : Nat) (mem : Memory) (s : StartState) : Prop where
  code : PayloadAt location mem
  flag : read mem (payloadData location + ApData.hasStarted) 1 = s.hasStarted
  stack : ∀ i < 8, mem (payloadData location + ApData.stack + i) = s.stack i

theorem ApAt.start {s t : StartState} {l : Nat} (low : location ≤ 0xf000)
    (shared : Shared location mem s) (at_ : ApAt location ap (s.aps l))
    (step : startStep s (.start l) = some t) :
    ∃ mem' ap', apSteps location 2 (mem, ap) = some (mem', ap') ∧ Shared location mem' t ∧
      ApAt location ap' (t.aps l) := by
  simp only [startStep] at step
  split at step
  · rename_i boots
    cases step
    rw [boots] at at_
    obtain ⟨real, ip⟩ := at_
    obtain ⟨ap', run, after⟩ := apSteps_flag shared.code low ap
    have same : { ap with long := false, ip := 0 } = ap := by
      rw [← real, ← ip]
    rw [same] at run
    refine ⟨_, ap', run, ⟨shared.code.write (by omega), ?_, fun i below => ?_⟩, ?_⟩
    · exact read_write_same ..
    · rw [write_other (.inr (by unfold ApData.hasStarted ApData.stack; omega))]
      exact shared.stack i below
    · show ApAt location ap' (Function.update s.aps l .spinning l)
      rw [Function.update_self]
      exact after
  · cases step

theorem ApAt.spin {s t : StartState} {l : Nat} (low : location ≤ 0xf000)
    (shared : Shared location mem s) (at_ : ApAt location ap (s.aps l))
    (step : startStep s (.spin l) = some t) :
    ∃ ap', apSteps location 2 (mem, ap) = some (mem, ap') ∧ Shared location mem t ∧
      ApAt location ap' (t.aps l) := by
  simp only [startStep] at step
  split at step
  · rename_i spins
    rw [spins] at at_
    obtain ⟨ap₁, first, at₁, zf⟩ := apStep_cmpb shared.code low at_
    obtain ⟨ap₂, second, at₂⟩ := apStep_jne shared.code at₁
    have run : apSteps location 2 (mem, ap) = some (mem, ap₂) := by
      rw [apSteps, first, Option.bind_some, apSteps, second, Option.bind_some, apSteps]
    rw [zf, shared.flag] at at₂
    cases step
    refine ⟨ap₂, run, ?_, ?_⟩
    · split
      · exact ⟨shared.code, shared.flag, shared.stack⟩
      · exact shared
    · split
      · rename_i clear
        show ApAt location ap₂ (Function.update s.aps l (.reading []) l)
        rw [Function.update_self]
        rw [clear] at at₂
        exact ⟨rfl, at₂⟩
      · rename_i set_
        rw [spins]
        rw [decide_eq_false set_] at at₂
        exact at₂
  · cases step

theorem setAp_self (s : StartState) (l : Nat) (p : ApPhase) : (s.setAp l p).aps l = p := by
  show Function.update s.aps l p l = p
  rw [Function.update_self]

theorem run_load {s : StartState} {l : Nat} (reads : s.aps l = .reading []) {n : Nat}
    (short : n < 8) :
    ∃ t, run startStep s (List.replicate n (.load l)) = some t ∧
      t.aps l = .reading ((List.range n).map s.stack) ∧ t.stack = s.stack ∧
      t.hasStarted = s.hasStarted := by
  induction n with
  | zero => exact ⟨s, rfl, reads, rfl, rfl⟩
  | succ n ih =>
    obtain ⟨t, back, got, stack, flag⟩ := ih (by omega)
    have step : startStep t (.load l) =
        some (t.setAp l (.reading ((List.range (n + 1)).map s.stack))) := by
      rw [List.range_succ, List.map_append, List.map_singleton]
      simp only [startStep, got, stack, List.length_append, List.length_map, List.length_range,
        List.length_singleton, if_neg (show n + 1 ≠ 8 by omega)]
    refine ⟨_, ?_, setAp_self t l _, stack, flag⟩
    rw [List.replicate_succ', run_append, back, Option.bind_some, run, step, Option.bind_some,
      run]

theorem run_loads {s : StartState} {l : Nat} (reads : s.aps l = .reading []) :
    ∃ t, run startStep s (List.replicate 8 (.load l)) = some t ∧
      t.aps l = .running (read t.stack 0 8) ∧ t.stack = s.stack ∧
      t.hasStarted = s.hasStarted := by
  obtain ⟨t, back, got, stack, flag⟩ := run_load reads (show 7 < 8 by decide)
  have whole : read (fun i => ((List.range 8).map s.stack).getD i 0) 0 8 = read t.stack 0 8 := by
    apply read_congr
    intro x _ below
    rw [stack, List.getD_eq_getElem _ _ (by simpa using below), List.getElem_map,
      List.getElem_range]
  have step : startStep t (.load l) = some (t.setAp l (.running (read t.stack 0 8))) := by
    rw [← whole, List.range_succ, List.map_append, List.map_singleton]
    simp only [startStep, got, stack, List.length_append, List.length_map, List.length_range,
      List.length_singleton, if_true]
  refine ⟨t.setAp l (.running (read t.stack 0 8)), ?_, setAp_self t l _, stack, flag⟩
  rw [List.replicate_succ', run_append, back, Option.bind_some, run, step, Option.bind_some, run]

theorem Shared.stubAdded {s : StartState} (shared : Shared location mem s) :
    Shared location (stubAdded location mem) s := by
  refine ⟨shared.code.write (by omega), ?_, fun i below => ?_⟩
  · rw [← shared.flag]
    exact read_write_other (.inl (by unfold ApData.startAddr ApData.hasStarted; omega))
  · rw [← shared.stack i below]
    exact write_other (.inr (by unfold ApData.startAddr ApData.stack; omega))

theorem Shared.read_stack {s : StartState} (shared : Shared location mem s) :
    read mem (payloadData location + ApData.stack) 8 = read s.stack 0 8 := by
  refine read_shift fun i below => ?_
  rw [shared.stack i below, Nat.zero_add]

theorem Shared.enter {s : StartState} (shared : Shared location mem s) (low : location ≤ 0xf000)
    (stub : StubAt location ((location + x64Stub) % 2 ^ 16) ap) :
    ∃ ap', apSteps location 7 (mem, ap) = some (mem, ap') ∧
      ApAt location ap' (.running (read s.stack 0 8)) := by
  have target : (location + x64Stub) % 2 ^ 16 = location + x64Stub := by
    unfold x64Stub
    omega
  rw [target] at stub
  obtain ⟨ap', run, _, rsp, rbp⟩ := apSteps_stub shared.code stub
  rw [shared.read_stack] at rsp
  exact ⟨ap', run, rsp, rbp.trans rsp⟩

theorem ApAt.load {s : StartState} {l : Nat} (low : location ≤ 0xf000)
    (shared : Shared location mem s) (at_ : ApAt location ap (s.aps l))
    (reads : s.aps l = .reading [])
    (right : read mem (payloadData location + ApData.startAddr) 2 = location) :
    ∃ t mem' ap', run startStep s (List.replicate 8 (.load l)) = some t ∧
      (toJump location 16 (mem, ap)).bind (apSteps location 7) = some (mem', ap') ∧
      Shared location mem' t ∧ ApAt location ap' (t.aps l) := by
  rw [reads] at at_
  obtain ⟨ap₁, jump, stub⟩ := toJump_leave shared.code low at_.2
  rw [right] at stub
  have shared' := shared.stubAdded
  obtain ⟨ap₂, enter, runs⟩ := shared'.enter low stub
  obtain ⟨t, loaded, aps, stack, flag⟩ := run_loads reads
  refine ⟨t, _, ap₂, loaded, ?_, ⟨shared'.code, ?_, ?_⟩, ?_⟩
  · rw [jump 0, Option.bind_some, enter]
  · rw [flag, shared'.flag]
  · rw [stack]
    exact shared'.stack
  · rw [aps, stack]
    exact runs

theorem run_asking {s : StartState} {l : Nat} (idle : s.bsp = .idle) (off : s.aps l = .off)
    (v : Nat) :
    ∃ t, run startStep s [.call l, .start l, .poll v] = some t ∧
      t.bsp = .publishing l (v % 2 ^ 64) 0 ∧ t.aps l = .spinning := by
  obtain ⟨s₁, call, poll, boots⟩ : ∃ t, startStep s (.call l) = some t ∧
      t.bsp = .polling l false ∧ t.aps l = .booting :=
    ⟨_, if_pos ⟨idle, off⟩, rfl, setAp_self s l .booting⟩
  obtain ⟨s₂, start, poll₂, flag, spins⟩ : ∃ t, startStep s₁ (.start l) = some t ∧
      t.bsp = s₁.bsp ∧ t.hasStarted = 1 ∧ t.aps l = .spinning :=
    ⟨_, if_pos boots, rfl, rfl, setAp_self s₁ l .spinning⟩
  obtain ⟨s₃, seen, bsp, aps⟩ : ∃ t, startStep s₂ (.poll v) = some t ∧
      t.bsp = .publishing l (v % 2 ^ 64) 0 ∧ t.aps = s₂.aps := by
    simp only [startStep, poll₂, poll, flag]
    exact ⟨_, rfl, rfl, rfl⟩
  refine ⟨s₃, ?_, bsp, aps ▸ spins⟩
  rw [run, call, Option.bind_some, run, start, Option.bind_some, run, seen, Option.bind_some, run]

theorem run_publish {s : StartState} {l v : Nat} (bsp : s.bsp = .publishing l v 0) {n : Nat}
    (fits : n ≤ 8) :
    ∃ t, run startStep s (List.replicate n .publish) = some t ∧ t.bsp = .publishing l v n ∧
      t.aps = s.aps ∧ ∀ i < n, t.stack i = stackByte v i := by
  induction n with
  | zero => exact ⟨s, rfl, bsp, rfl, fun _ no => absurd no (Nat.not_lt_zero _)⟩
  | succ n ih =>
    obtain ⟨t, back, at_, aps, written⟩ := ih (by omega)
    obtain ⟨t', step, at', aps', stack⟩ : ∃ t', startStep t .publish = some t' ∧
        t'.bsp = .publishing l v (n + 1) ∧ t'.aps = t.aps ∧
        t'.stack = Function.update t.stack n (stackByte v n) := by
      simp only [startStep, at_, if_pos (show n < 8 by omega)]
      exact ⟨_, rfl, rfl, rfl, rfl⟩
    refine ⟨t', ?_, at', aps'.trans aps, fun i below => ?_⟩
    · rw [List.replicate_succ', run_append, back, Option.bind_some, run, step, Option.bind_some,
        run]
    · rw [stack]
      by_cases last : i = n
      · rw [last, Function.update_self]
      · rw [Function.update_of_ne last, written i (by omega)]

theorem run_wholeStart {s : StartState} {l : Nat} (idle : s.bsp = .idle) (off : s.aps l = .off)
    (v : Nat) :
    ∃ t, run startStep s (wholeStart l v) = some t ∧ t.hasStarted = 0 ∧
      (∀ i < 8, t.stack i = stackByte (v % 2 ^ 64) i) ∧
      t.aps l = .running (read t.stack 0 8) := by
  obtain ⟨s₁, asked, bsp, spins⟩ := run_asking idle off v
  obtain ⟨s₂, wrote, at_, aps, written⟩ := run_publish bsp (Nat.le_refl 8)
  obtain ⟨s₃, answer, clear, aps', stack⟩ : ∃ t, startStep s₂ .publish = some t ∧
      t.hasStarted = 0 ∧ t.aps = s₂.aps ∧ t.stack = s₂.stack := by
    simp only [startStep, at_]
    exact ⟨_, rfl, rfl, rfl, rfl⟩
  have spins₃ : s₃.aps l = .spinning := by rw [aps', aps, spins]
  have left : startStep s₃ (.spin l) = some (s₃.setAp l (.reading [])) := by
    rw [startStep, if_pos spins₃, if_pos clear]
  have published : run startStep s₁ publishAll = some s₃ := by
    rw [publishAll, List.replicate_succ', run_append, wrote, Option.bind_some, run, answer]
    rfl
  obtain ⟨t, loaded, runs, stack', flag⟩ := run_loads (setAp_self s₃ l (.reading []))
  refine ⟨t, ?_, flag.trans clear, ?_, runs⟩
  · rw [wholeStart, run_append, asked, Option.bind_some, run_append, published, Option.bind_some,
      readStack, run, left, Option.bind_some, loaded]
  · rw [stack']
    exact stack ▸ written

theorem stackByte_mod {v i : Nat} (below : i < 8) : stackByte (v % 2 ^ 64) i = stackByte v i := by
  have split : 2 ^ 64 = 256 ^ i * 256 ^ (8 - i) := by
    rw [← Nat.pow_add, Nat.add_sub_cancel' below.le]
    rfl
  apply BitVec.eq_of_toNat_eq
  rw [stackByte, stackByte, BitVec.toNat_ofNat, BitVec.toNat_ofNat, split,
    Nat.mod_mul_right_div_self, Nat.mod_mod_of_dvd]
  exact dvd_pow_self 256 (by omega)

theorem PayloadAt.shared {t : StartState} {v : Nat} (code : PayloadAt location mem)
    (clear : t.hasStarted = 0) (bytes : ∀ i < 8, t.stack i = stackByte (v % 2 ^ 64) i) :
    Shared location (cpuStarted location v mem) t := by
  refine ⟨(code.write (by omega)).write (by omega), ?_, fun i below => ?_⟩
  · rw [clear]
    exact read_write_same ..
  · rw [cpuStarted, write_other (.inr (by unfold ApData.hasStarted ApData.stack; omega)),
      Bytes.write, if_pos (by omega), Nat.add_sub_cancel_left, bytes i below, stackByte_mod below]
    rfl

theorem start_realised {s : StartState} {l : Nat} (low : location ≤ 0xf000)
    (code : PayloadAt location mem) (idle : s.bsp = .idle) (off : s.aps l = .off)
    (right : read mem (payloadData location + ApData.startAddr) 2 = location) (c : ApStart) :
    ∃ t mem' ap', run startStep s (wholeStart l c.stack) = some t ∧
      (startAp location mem c).bind (apSteps location 7) = some (mem', ap') ∧
      Shared location mem' t ∧ ApAt location ap' (t.aps l) := by
  obtain ⟨t, back, clear, bytes, runs⟩ := run_wholeStart idle off c.stack
  obtain ⟨ap₁, jump, stub⟩ := startAp_jumps code low c
  rw [right] at stub
  have shared : Shared location (jumped location c.stack mem) t :=
    ((code.write (by omega)).shared clear bytes).stubAdded
  obtain ⟨ap₂, enter, at_⟩ := shared.enter low stub
  refine ⟨t, _, ap₂, back, ?_, shared, ?_⟩
  · rw [jump, Option.bind_some, enter]
  · rw [runs]
    exact at_

end Phases

end Gapxos
