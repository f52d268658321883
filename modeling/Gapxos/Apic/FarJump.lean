import Gapxos.Apic.Payload

/-! Processors that run the payload one after the other. Each adds the offset of x64_stub to
the start_addr that all of them share, and jumps there. -/
namespace Gapxos
open Bytes

def x64Stub : Nat := 0x45

/-- A processor that cpu_start starts: its registers when the SIPI comes, the steps it spins for
before the kernel answers, and the stack that it is given. -/
structure ApStart where
  regs : Ap
  spins : Nat
  stack : Nat

section Start

variable (location : Nat)

def toJump : Nat → Memory × Ap → Option (Memory × Ap)
  | 0, _ => none
  | n + 1, x => if x.2.long then some x else (apStep location x).bind (toJump n)

/-- From the SIPI to the far jump. cpu_start sees the flag at the earliest after two steps. What
the processor does behind the jump is not looked at. -/
def startAp (mem : Memory) (c : ApStart) : Option (Memory × Ap) := do
  let x ← apSteps location (c.spins + 2) (mem, { c.regs with long := false, ip := 0 })
  toJump location 19 (cpuStarted location c.stack x.1, x.2)

/-- The offsets that the processors jump to. -/
def startAll : List ApStart → Memory → Option (List Nat)
  | [], _ => some []
  | c :: starts, mem => do
    let x ← startAp location mem c
    let rest ← startAll starts x.1
    some (x.2.ip :: rest)

def loadedPayload : List (BitVec 8) :=
  0xbe :: .ofNat 8 (payloadData location) :: .ofNat 8 (payloadData location / 256) ::
    apInitPayload.drop 3

def PayloadAt (mem : Memory) : Prop :=
  ∀ i < apInitPayloadLen, mem (location + i) = (loadedPayload location).getD i 0

end Start

section Code

variable {location : Nat} {mem : Memory} {ap : Ap} {a n w : Nat}

theorem PayloadAt.write (code : PayloadAt location mem) (behind : payloadData location ≤ a) :
    PayloadAt location (Bytes.write mem a n w) := by
  intro i inside
  rw [write_other (.inl (Nat.lt_of_lt_of_le (Nat.add_lt_add_left inside location) behind))]
  exact code i inside

theorem cpuInitApPayload_code (location pml4t entryPoint : Nat) (mem : Memory) :
    PayloadAt location (cpuInitApPayload location pml4t entryPoint mem) := by
  have loaded : PayloadAt location (Bytes.write (storeBytes mem location apInitPayload)
      (location + 1) 2 (payloadData location)) := by
    have long : apInitPayload.length = apInitPayloadLen := by decide
    intro i inside
    have bytes : storeBytes mem location apInitPayload (location + i) = apInitPayload.getD i 0 := by
      rw [storeBytes, if_pos (by omega), Nat.add_sub_cancel_left]
    match i with
    | 0 =>
      rw [write_other (by omega), bytes]
      rfl
    | 1 =>
      rw [Bytes.write, if_pos (by omega), Nat.sub_self, Nat.pow_zero, Nat.div_one]
      rfl
    | 2 =>
      rw [Bytes.write, if_pos (by omega), show location + 2 - (location + 1) = 1 by omega,
        Nat.pow_one]
      rfl
    | i + 3 =>
      rw [write_other (by omega), bytes]
      rfl
  unfold cpuInitApPayload
  repeat refine PayloadAt.write ?_ (by omega)
  exact loaded

theorem cpuInitApPayload_startAddr (location pml4t entryPoint : Nat) (mem : Memory) :
    read (cpuInitApPayload location pml4t entryPoint mem)
      (payloadData location + ApData.startAddr) 2 = location % 2 ^ 16 := by
  unfold cpuInitApPayload ApData.hasStarted ApData.codeSelector ApData.tmpGdtLimit
    ApData.tmpGdtBase ApData.krnEntry ApData.startAddr
  dsimp only
  rw [read_write_other (by omega), read_write_other (by omega), read_write_other (by omega),
    read_write_other (by omega), read_write_other (by omega), read_write_same,
    show 256 ^ 2 = 2 ^ 16 from rfl]

/-- The bytes at an offset of the code, behind the address of the data. -/
def codeFrom (off : Nat) : List Nat :=
  (List.range 6).map fun i => (apInitPayload.getD (off + i) 0).toNat

theorem fetch_code (code : PayloadAt location mem) {off : Nat} (behind : 3 ≤ off)
    (inside : off + 6 ≤ apInitPayloadLen) : fetch mem (location + off) = codeFrom off := by
  refine List.map_congr_left fun j below => ?_
  have := List.mem_range.mp below
  obtain ⟨k, rfl⟩ := Nat.exists_eq_add_of_le behind
  rw [Nat.add_assoc, code (3 + k + j) (by omega), Nat.add_assoc, Nat.add_comm 3]
  rfl

/-- Behind the far jump, at `target`, with the address of the data. -/
structure StubAt (location target : Nat) (ap : Ap) : Prop where
  long : ap.long = true
  ip : ap.ip = target
  si : ap.rsi % 2 ^ 16 = payloadData location

def listed : Nat → List (Instr × Nat) → Bool
  | _, [] => true
  | off, (i, len) :: rest => 3 ≤ off && off + 6 ≤ apInitPayloadLen &&
      decode16 (codeFrom off) = some (i, len) && listed (off + len) rest

/-- In 16-bit mode at an offset of the code, with the address of the data. -/
structure RealAt (location off : Nat) (ap : Ap) : Prop where
  real : ap.long = false
  ip : ap.ip = off
  si : ap.rsi % 2 ^ 16 = payloadData location

variable {off len : Nat} {i : Instr}

theorem apStep_code {rest : List (Instr × Nat)} (code : PayloadAt location mem)
    (real : ap.long = false) (ip : ap.ip = off) (is : listed off ((i, len) :: rest) = true) :
    apStep location (mem, ap) = some (exec mem { ap with ip := off + len } i) ∧
      listed (off + len) rest = true := by
  simp only [listed, Bool.and_eq_true, decide_eq_true_eq] at is
  obtain ⟨⟨⟨behind, inside⟩, is⟩, rest⟩ := is
  simp only [apStep, real, Bool.false_eq_true, if_false, ip, fetch_code code behind inside, is,
    Option.bind_eq_bind, Option.bind_some, rest, and_self]

/- The data are within the segment. -/
theorem RealAt.data (at_ : RealAt location off ap) (low : location ≤ 0xf000) {disp : Nat}
    (inside : disp < ApData.size) : ap.at disp = payloadData location + disp := by
  unfold Ap.at signExtend
  rw [at_.si]
  unfold payloadData apInitPayloadLen
  unfold ApData.size at inside
  rw [if_pos (by omega)]
  omega

/-- Instructions that change neither memory nor the place of the data. -/
def Instr.quiet : Instr → Bool
  | .movlSi | .movToCr _ | .movFromCr _ | .orl _ | .movlEcx _ | .rdmsr | .wrmsr | .lgdtw _ => true
  | _ => false

theorem exec_quiet (mem : Memory) (ap : Ap) (quiet : i.quiet = true) :
    ∃ ap', exec mem ap i = (mem, ap') ∧ ap'.long = ap.long ∧ ap'.ip = ap.ip ∧
      ap'.rsi = ap.rsi := by
  cases i
  case movwSi | movb | cmpb | jne | addw | ljmp | movwSiAx | xorqRsi | movwAxSi | movqRsp |
      movqRbp | movqRax | jmpqRax => cases quiet
  all_goals exact ⟨_, rfl, rfl, rfl, rfl⟩

theorem toJump_step {x y : Memory × Ap} (real : x.2.long = false)
    (step : apStep location x = some y) : toJump location (n + 1) x = toJump location n y := by
  rw [toJump, real, if_neg Bool.false_ne_true, step, Option.bind_some]

theorem toJump_quiet {is : List (Instr × Nat)} (code : PayloadAt location mem)
    (at_ : RealAt location off ap) (code_ : listed off is = true)
    (quiet : ∀ i ∈ is, i.1.quiet = true) :
    ∃ ap', RealAt location (off + (is.map Prod.snd).sum) ap' ∧
      ∀ n, toJump location (n + is.length) (mem, ap) = toJump location n (mem, ap') := by
  induction is generalizing off ap with
  | nil => exact ⟨ap, at_, fun _ => rfl⟩
  | cons i is ih =>
    obtain ⟨i, len⟩ := i
    obtain ⟨step, rest⟩ := apStep_code code at_.real at_.ip code_
    obtain ⟨first, others⟩ := List.forall_mem_cons.mp quiet
    obtain ⟨ap', eq, long, ip, rsi⟩ := exec_quiet mem { ap with ip := off + len } first
    rw [eq] at step
    obtain ⟨last, atLast, run⟩ :=
      ih ⟨long.trans at_.real, ip, (congrArg (· % 2 ^ 16) rsi).trans at_.si⟩ rest others
    refine ⟨last, ?_, fun n => ?_⟩
    · rw [List.map_cons, List.sum_cons, ← Nat.add_assoc]
      exact atLast
    · rw [List.length_cons, ← Nat.add_assoc, toJump_step at_.real step, run]

def stubAdded (location : Nat) (mem : Memory) : Memory :=
  Bytes.write mem (payloadData location + ApData.startAddr) 2
    (Bytes.read mem (payloadData location + ApData.startAddr) 2 + x64Stub)

theorem apStep_addw (code : PayloadAt location mem) (low : location ≤ 0xf000)
    (at_ : RealAt location 57 ap) :
    ∃ ap', apStep location (mem, ap) = some (stubAdded location mem, ap') ∧
      RealAt location 62 ap' := by
  have step := (apStep_code code at_.real at_.ip
    (show listed 57 [(.addw x64Stub ApData.startAddr, 5)] = true by decide)).1
  have after : RealAt location 62 { ap with ip := 57 + 5 } := ⟨at_.real, rfl, at_.si⟩
  rw [exec, after.data low (by decide)] at step
  exact ⟨_, step, after⟩

theorem apStep_ljmp (code : PayloadAt location mem) (low : location ≤ 0xf000)
    (at_ : RealAt location 66 ap) :
    ∃ ap', apStep location (mem, ap) = some (mem, ap') ∧
      StubAt location (Bytes.read mem (payloadData location + ApData.startAddr) 2) ap' := by
  have step := (apStep_code code at_.real at_.ip
    (show listed 66 [(.ljmp ApData.startAddr, 3)] = true by decide)).1
  have after : RealAt location 69 { ap with ip := 66 + 3 } := ⟨at_.real, rfl, at_.si⟩
  rw [exec, after.data low (by decide)] at step
  exact ⟨_, step, rfl, rfl, at_.si⟩

/- The instructions from the end of the loop to the addition. -/
def toAdd : List (Instr × Nat) :=
  [(.movlSi, 3), (.movToCr 3, 3), (.movFromCr 4, 3), (.orl 0x20, 4), (.movToCr 4, 3),
    (.movlEcx 0xc0000080, 6), (.rdmsr, 2), (.orl 0x900, 6), (.wrmsr, 2), (.movFromCr 0, 3),
    (.orl 0x80000001, 6), (.movToCr 0, 3)]

theorem toJump_leave (code : PayloadAt location mem) (low : location ≤ 0xf000)
    (at_ : RealAt location 13 ap) : ∃ ap', (∀ n, toJump location (n + 16) (mem, ap) =
        some (stubAdded location mem, ap')) ∧ StubAt location
      ((Bytes.read mem (payloadData location + ApData.startAddr) 2 + x64Stub) % 2 ^ 16) ap' := by
  obtain ⟨ap₁, at₁, run₁⟩ := toJump_quiet code at_ (show listed 13 toAdd = true by decide)
    (by decide)
  obtain ⟨ap₂, add, at₂⟩ := apStep_addw code low at₁
  have code₂ : PayloadAt location (stubAdded location mem) := code.write (by omega)
  obtain ⟨ap₃, at₃, run₃⟩ := toJump_quiet code₂ at₂
    (show listed 62 [(.lgdtw ApData.tmpGdtLimit, 4)] = true by decide) (by decide)
  obtain ⟨ap₄, jump, stub⟩ := apStep_ljmp code₂ low at₃
  refine ⟨ap₄, fun n => ?_, ?_⟩
  · have first : toJump location (n + 16) (mem, ap) = _ := run₁ (n + 4)
    have third : toJump location (n + 3) (stubAdded location mem, ap₂) = _ := run₃ (n + 2)
    rw [first, toJump_step at₁.real add, third, toJump_step at₃.real jump, toJump,
      if_pos stub.long]
  · rw [stubAdded, read_write_same] at stub
    exact stub

def Spinning (location : Nat) (ap : Ap) : Prop :=
  RealAt location 7 ap ∨ RealAt location 11 ap ∧ ap.zf = false

theorem apStep_cmpb (code : PayloadAt location mem) (low : location ≤ 0xf000)
    (at_ : RealAt location 7 ap) : ∃ ap', apStep location (mem, ap) = some (mem, ap') ∧
      RealAt location 11 ap' ∧
      ap'.zf = decide (Bytes.read mem (payloadData location + ApData.hasStarted) 1 = 0) := by
  have step := (apStep_code code at_.real at_.ip
    (show listed 7 [(.cmpb 0 ApData.hasStarted, 4)] = true by decide)).1
  have after : RealAt location 11 { ap with ip := 7 + 4 } := ⟨at_.real, rfl, at_.si⟩
  rw [exec, after.data low (by decide)] at step
  exact ⟨_, step, ⟨at_.real, rfl, at_.si⟩, rfl⟩

theorem apStep_jne (code : PayloadAt location mem) (at_ : RealAt location 11 ap) :
    ∃ ap', apStep location (mem, ap) = some (mem, ap') ∧
      RealAt location (if ap.zf then 13 else 7) ap' := by
  have step := (apStep_code code at_.real at_.ip
    (show listed 11 [(.jne 0xfa, 2)] = true by decide)).1
  have back : (11 + 2 + signExtend 16 0xfa) % 2 ^ 16 = 7 := by decide
  rw [exec] at step
  refine ⟨_, step, ?_⟩
  cases ap.zf with
  | true => exact ⟨at_.real, rfl, at_.si⟩
  | false =>
    simp only [Bool.false_eq_true, if_false]
    exact ⟨at_.real, back, at_.si⟩

theorem apSteps_spin (code : PayloadAt location mem) (low : location ≤ 0xf000)
    (flag : Bytes.read mem (payloadData location + ApData.hasStarted) 1 ≠ 0)
    (spinning : Spinning location ap) (n : Nat) :
    ∃ ap', apSteps location n (mem, ap) = some (mem, ap') ∧ Spinning location ap' := by
  induction n generalizing ap with
  | zero => exact ⟨ap, rfl, spinning⟩
  | succ n ih =>
    obtain ⟨next, step, still⟩ :
        ∃ next, apStep location (mem, ap) = some (mem, next) ∧ Spinning location next := by
      rcases spinning with at_ | ⟨at_, zf⟩
      · obtain ⟨next, step, after, zf⟩ := apStep_cmpb code low at_
        exact ⟨next, step, .inr ⟨after, zf.trans (decide_eq_false flag)⟩⟩
      · obtain ⟨next, step, after⟩ := apStep_jne code at_
        rw [zf] at after
        exact ⟨next, step, .inl after⟩
    obtain ⟨last, rest, stillLast⟩ := ih still
    exact ⟨last, by rw [apSteps, step, Option.bind_some, rest], stillLast⟩

theorem toJump_released (code : PayloadAt location mem) (low : location ≤ 0xf000)
    (flag : Bytes.read mem (payloadData location + ApData.hasStarted) 1 = 0)
    (spinning : Spinning location ap) : ∃ ap', toJump location 19 (mem, ap) =
        some (stubAdded location mem, ap') ∧ StubAt location
      ((Bytes.read mem (payloadData location + ApData.startAddr) 2 + x64Stub) % 2 ^ 16) ap' := by
  have leave : ∀ {ap}, RealAt location 7 ap → ∃ ap₂, RealAt location 13 ap₂ ∧
      ∀ n, toJump location (n + 2) (mem, ap) = toJump location n (mem, ap₂) := by
    intro ap at_
    obtain ⟨ap₁, step₁, at₁, zf⟩ := apStep_cmpb code low at_
    obtain ⟨ap₂, step₂, at₂⟩ := apStep_jne code at₁
    rw [zf, flag] at at₂
    exact ⟨ap₂, at₂, fun n => by rw [toJump_step at_.real step₁, toJump_step at₁.real step₂]⟩
  rcases spinning with at_ | ⟨at_, zf⟩
  · obtain ⟨ap₂, at₂, run⟩ := leave at_
    obtain ⟨last, jump, ip⟩ := toJump_leave code low at₂
    exact ⟨last, (run 17).trans (jump 1), ip⟩
  · obtain ⟨ap₁, step, at₁⟩ := apStep_jne code at_
    rw [zf] at at₁
    obtain ⟨ap₂, at₂, run⟩ := leave at₁
    obtain ⟨last, jump, ip⟩ := toJump_leave code low at₂
    exact ⟨last, ((toJump_step at_.real step).trans (run 16)).trans (jump 0), ip⟩

theorem apSteps_flag (code : PayloadAt location mem) (low : location ≤ 0xf000) (regs : Ap) :
    ∃ ap, apSteps location 2 (mem, { regs with long := false, ip := 0 }) =
        some (Bytes.write mem (payloadData location + ApData.hasStarted) 1 1, ap) ∧
      RealAt location 7 ap := by
  have small : payloadData location < 2 ^ 16 := by
    unfold payloadData apInitPayloadLen
    omega
  have bytes : fetch mem (location + 0) = 0xbe :: payloadData location % 256 ::
      payloadData location / 256 % 256 :: (fetch mem (location + 0)).drop 3 := by
    have first : mem (location + 0) = 0xbe := code 0 (by decide)
    have second : mem (location + 1) = .ofNat 8 (payloadData location) := code 1 (by decide)
    have third : mem (location + 2) = .ofNat 8 (payloadData location / 256) := code 2 (by decide)
    show (mem (location + 0)).toNat :: (mem (location + 1)).toNat :: (mem (location + 2)).toNat ::
      (fetch mem (location + 0)).drop 3 = _
    rw [first, second, third, BitVec.toNat_ofNat, BitVec.toNat_ofNat]
    rfl
  have word : payloadData location % 256 + 256 * (payloadData location / 256 % 256) =
    payloadData location := by omega
  have step : apStep location (mem, { regs with long := false, ip := 0 }) = some (mem, { regs with
      long := false
      ip := 0 + 3
      rsi := setLow regs.rsi (payloadData location) }) := by
    have decoded : decode16 (fetch mem (location + 0)) = some (.movwSi (payloadData location % 256 +
        256 * (payloadData location / 256 % 256)), 3) := by
      rw [bytes]
      rfl
    simp only [apStep, Bool.false_eq_true, if_false]
    rw [decoded, word]
    rfl
  have at_ : RealAt location 3 { regs with
      long := false
      ip := 0 + 3
      rsi := setLow regs.rsi (payloadData location) } := by
    refine ⟨rfl, rfl, ?_⟩
    unfold setLow
    dsimp only
    omega
  have set_ := (apStep_code code at_.real at_.ip
    (show listed 3 [(.movb 1 ApData.hasStarted, 4)] = true by decide)).1
  have after : RealAt location 7 { regs with
      long := false
      ip := 3 + 4
      rsi := setLow regs.rsi (payloadData location) } := ⟨rfl, rfl, at_.si⟩
  rw [exec, after.data low (by decide)] at set_
  refine ⟨_, ?_, after⟩
  rw [apSteps, step, Option.bind_some, apSteps, set_]
  rfl

theorem apSteps_add (m n : Nat) (x : Memory × Ap) : apSteps location (m + n) x =
    (apSteps location m x).bind (apSteps location n) := by
  induction m generalizing x with
  | zero => rw [Nat.zero_add, apSteps, Option.bind_some]
  | succ m ih =>
    rw [Nat.add_right_comm, apSteps, apSteps, Option.bind_assoc]
    congr
    funext y
    exact ih y

def jumped (location stack : Nat) (mem : Memory) : Memory :=
  stubAdded location (cpuStarted location stack
    (Bytes.write mem (payloadData location + ApData.hasStarted) 1 1))

theorem PayloadAt.jumped (code : PayloadAt location mem) (stack : Nat) :
    PayloadAt location (jumped location stack mem) :=
  (((code.write (by omega)).write (by omega)).write (by omega)).write (by omega)

theorem answered_startAddr (location stack : Nat) (mem : Memory) :
    Bytes.read (cpuStarted location stack (Bytes.write mem
      (payloadData location + ApData.hasStarted) 1 1)) (payloadData location + ApData.startAddr) 2 =
      Bytes.read mem (payloadData location + ApData.startAddr) 2 := by
  unfold cpuStarted ApData.startAddr ApData.hasStarted ApData.stack
  rw [read_write_other (by omega), read_write_other (by omega), read_write_other (by omega)]

theorem jumped_startAddr (location stack : Nat) (mem : Memory) :
    Bytes.read (jumped location stack mem) (payloadData location + ApData.startAddr) 2 =
      (Bytes.read mem (payloadData location + ApData.startAddr) 2 + x64Stub) % 2 ^ 16 := by
  rw [jumped, stubAdded, read_write_same, answered_startAddr]
  rfl

theorem startAp_jumps (code : PayloadAt location mem) (low : location ≤ 0xf000) (c : ApStart) :
    ∃ ap', startAp location mem c = some (jumped location c.stack mem, ap') ∧ StubAt location
      ((Bytes.read mem (payloadData location + ApData.startAddr) 2 + x64Stub) % 2 ^ 16) ap' := by
  obtain ⟨ap₁, first, at₁⟩ := apSteps_flag code low c.regs
  obtain ⟨mem₁, is₁⟩ :
    ∃ m, m = Bytes.write mem (payloadData location + ApData.hasStarted) 1 1 := ⟨_, rfl⟩
  obtain ⟨mem₂, is₂⟩ : ∃ m, m = cpuStarted location c.stack mem₁ := ⟨_, rfl⟩
  rw [← is₁] at first
  -- the flag is set while it spins and clear once the kernel has answered
  have code₁ : PayloadAt location mem₁ := is₁ ▸ code.write (by omega)
  obtain ⟨ap₂, spin, spinning⟩ := apSteps_spin code₁ low
    (by rw [is₁, read_write_same]; decide) (.inl at₁) c.spins
  have code₂ : PayloadAt location mem₂ := by
    rw [is₂]
    exact (code₁.write (by omega)).write (by omega)
  obtain ⟨ap₃, jump, stub⟩ := toJump_released code₂ low
    (by rw [is₂, cpuStarted, read_write_same, Nat.zero_mod]) spinning
  refine ⟨ap₃, ?_, ?_⟩
  · rw [startAp, Nat.add_comm, apSteps_add, first, Option.bind_some, spin, jumped, ← is₁, ← is₂]
    exact is₂ ▸ jump
  · rw [is₂, is₁, answered_startAddr] at stub
    exact stub

end Code

theorem startAll_offsets {location : Nat} {mem : Memory} (code : PayloadAt location mem)
    (low : location ≤ 0xf000) (starts : List ApStart) :
    startAll location starts mem = some ((List.range starts.length).map fun k =>
      (read mem (payloadData location + ApData.startAddr) 2 + x64Stub * (k + 1)) % 2 ^ 16) := by
  induction starts generalizing mem with
  | nil => rfl
  | cons c starts ih =>
    obtain ⟨ap', start, stub⟩ := startAp_jumps code low c
    simp only [startAll, start, Option.bind_eq_bind, Option.bind_some, ih (code.jumped c.stack),
      List.length_cons, List.range_succ_eq_map, List.map_cons, List.map_map, jumped_startAddr,
      stub.ip]
    refine congrArg some (List.cons_eq_cons.mpr ⟨by rw [Nat.zero_add, Nat.mul_one], ?_⟩)
    refine List.map_congr_left fun k _ => ?_
    rw [Function.comp_apply, Nat.mod_add_mod, Nat.mul_succ x64Stub (k.succ)]
    rw [Nat.add_assoc, Nat.add_comm x64Stub]

theorem far_jump_right_iff (location pml4t entryPoint : Nat) (mem : Memory)
    (starts : List ApStart) (page : location % 4096 = 0) (low : location < 0x10000) :
    (∃ offsets, startAll location starts (cpuInitApPayload location pml4t entryPoint mem) =
        some offsets ∧ ∀ o ∈ offsets, o = location + x64Stub) ↔ starts.length ≤ 1 := by
  rw [startAll_offsets (cpuInitApPayload_code location pml4t entryPoint mem) (by omega) starts,
    cpuInitApPayload_startAddr]
  unfold x64Stub
  constructor
  · rintro ⟨_, ⟨⟩, all⟩
    by_contra many
    have second := all _
      (List.mem_map_of_mem (List.mem_range.mpr (show 1 < starts.length by omega)))
    omega
  · intro one
    refine ⟨_, rfl, fun o listed => ?_⟩
    obtain ⟨k, below, rfl⟩ := List.mem_map.mp listed
    have := List.mem_range.mp below
    omega

/-- A processor that the kernel answers at once. -/
def promptStart : ApStart :=
  ⟨⟨false, 0, 0, 0, 0, 0, 0, 0, 0, false, fun _ => 0, fun _ => 0, ⟨0, 0⟩⟩, 0, 0x9000⟩

theorem far_jump_right_one : 0x1000 % 4096 = 0 ∧
    ∃ offsets, startAll 0x1000 [promptStart] (cpuInitApPayload 0x1000 0 0 fun _ => 0) =
      some offsets ∧ ∀ o ∈ offsets, o = 0x1000 + x64Stub :=
  ⟨rfl, (far_jump_right_iff 0x1000 0 0 (fun _ => 0) [promptStart] rfl (by decide)).mpr
    (Nat.le_refl 1)⟩

/-- The second processor jumps behind the payload. -/
theorem second_jump_wrong :
    startAll 0x1000 [promptStart, promptStart] (cpuInitApPayload 0x1000 0 0 fun _ => 0) =
      some [0x1045, 0x108a] ∧ 0x108a ≠ 0x1000 + x64Stub := by
  rw [startAll_offsets (cpuInitApPayload_code 0x1000 0 0 fun _ => 0) (by decide),
    cpuInitApPayload_startAddr]
  decide

end Gapxos
