import Gapxos.Lib.Bytes
import Gapxos.Lib.Runs
import Mathlib.Data.List.GetD
import Mathlib.Logic.Function.Basic

/-! Starting the application processors. They share one flag and one stack field with the boot
processor, which serves them by one call of cpu_start after the other. -/
namespace Gapxos
open Bytes Runs

/-- How far a processor is in ap_init_payload: from its SIPI to the flag, in the loop, reading
the bytes of the stack, and with the stack. -/
inductive ApPhase where
  | off
  | booting
  | spinning
  | reading (got : List (BitVec 8))
  | running (stack : Nat)
  deriving DecidableEq

/-- Where the boot processor is: outside of cpu_start, in one of its two polling loops, or in
_cpu_started with some bytes of the stack written. -/
inductive BspPhase where
  | idle
  | polling (lapic : Nat) (again : Bool)
  | publishing (lapic stack written : Nat)
  deriving DecidableEq

/-- Of a call that came back: the processor, the result, and if it set the flag meanwhile. -/
structure Returned where
  lapic : Nat
  result : Nat
  own : Bool
  deriving DecidableEq

structure StartState where
  bsp : BspPhase
  hasStarted : Nat
  stack : Memory
  aps : Nat → ApPhase
  published : List Nat
  since : List Nat
  returned : List Returned

inductive StartEvent where
  | call (lapic : Nat)
  | poll (stack : Nat)
  | timeout
  | publish
  | start (lapic : Nat)
  | spin (lapic : Nat)
  | load (lapic : Nat)
  deriving DecidableEq

def StartState.setAp (s : StartState) (l : Nat) (p : ApPhase) : StartState :=
  { s with aps := Function.update s.aps l p }

def stackByte (v i : Nat) : BitVec 8 := .ofNat 8 (v / 256 ^ i)

/-- One access. malloc_pages gives `stack` if the flag is seen, and a timeout may end either
loop at any moment. -/
def startStep (s : StartState) : StartEvent → Option StartState
  | .call l =>
    if s.bsp = .idle ∧ s.aps l = .off then
      some { s.setAp l .booting with
        bsp := .polling l false
        since := [] }
    else none
  | .poll stack =>
    match s.bsp with
    | .polling l _ =>
      if s.hasStarted ≠ 0 then
        some { s with
          bsp := .publishing l (stack % 2 ^ 64) 0
          published := s.published ++ [stack % 2 ^ 64] }
      else some s
    | _ => none
  | .timeout =>
    match s.bsp with
    | .polling l false => some { s with bsp := .polling l true }
    | .polling l true =>
      some { s with
        bsp := .idle
        returned := s.returned ++ [⟨l, 1, l ∈ s.since⟩] }
    | _ => none
  | .publish =>
    match s.bsp with
    | .publishing l v n =>
      if n < 8 then
        some { s with
          bsp := .publishing l v (n + 1)
          stack := Function.update s.stack n (stackByte v n) }
      else
        some { s with
          bsp := .idle
          hasStarted := 0
          returned := s.returned ++ [⟨l, 0, l ∈ s.since⟩] }
    | _ => none
  | .start l =>
    if s.aps l = .booting then
      some { s.setAp l .spinning with
        hasStarted := 1
        since := l :: s.since }
    else none
  | .spin l =>
    if s.aps l = .spinning then
      some (if s.hasStarted = 0 then s.setAp l (.reading []) else s)
    else none
  | .load l =>
    match s.aps l with
    | .reading got =>
      let got := got ++ [s.stack got.length]
      some (s.setAp l (if got.length = 8 then .running (read (fun i => got.getD i 0) 0 8)
        else .reading got))
    | _ => none

/-- After cpu_init_ap_payload; the stack field is not set. -/
def startInitial (stack : Memory) : StartState := ⟨.idle, 0, stack, fun _ => .off, [], [], []⟩

/-- No two processors have read one published stack. -/
def StacksApart (s : StartState) : Prop :=
  ∀ l m, ∀ v ∈ s.published, s.aps l = .running v → s.aps m = .running v → l = m

/-- A call returned 0 only if its processor set the flag during it. -/
def OwnStarts (s : StartState) : Prop :=
  ∀ r ∈ s.returned, r.result = 0 → r.own = true

def ApPhase.settled : ApPhase → Bool
  | .off | .running _ => true
  | _ => false

/-- A call begins when every processor sent a SIPI before has its stack, and malloc_pages does
not give out a stack twice. -/
def InTurn (s : StartState) : StartEvent → Prop
  | .call _ => ∀ l, (s.aps l).settled = true
  | .poll stack => s.hasStarted ≠ 0 → stack % 2 ^ 64 ∉ s.published
  | _ => True

structure Unread (s : StartState) (v : Nat) : Prop where
  word : v < 2 ^ 64
  published : v ∈ s.published
  unread : ∀ l, s.aps l ≠ .running v

/-- The processor that is being started against the flag and the boot processor. -/
inductive Stage (s : StartState) (l : Nat) : Prop where
  | settled (bsp : s.bsp = .idle) (flag : s.hasStarted = 0) (ap : (s.aps l).settled = true)
  | booting (bsp : s.bsp = .idle ∨ ∃ again, s.bsp = .polling l again) (flag : s.hasStarted = 0)
      (ap : s.aps l = .booting)
  | asking (bsp : s.bsp = .idle ∨ ∃ again, s.bsp = .polling l again) (flag : s.hasStarted ≠ 0)
      (ap : s.aps l = .spinning) (own : l ∈ s.since)
  | publishing (v n : Nat) (bsp : s.bsp = .publishing l v n) (flag : s.hasStarted ≠ 0)
      (ap : s.aps l = .spinning) (own : l ∈ s.since) (unread : Unread s v)
      (written : ∀ i < n, s.stack i = stackByte v i)
  | answered (v : Nat) (bsp : s.bsp = .idle) (flag : s.hasStarted = 0) (ap : s.aps l = .spinning)
      (unread : Unread s v) (written : ∀ i < 8, s.stack i = stackByte v i)
  | reading (v : Nat) (got : List (BitVec 8)) (bsp : s.bsp = .idle) (flag : s.hasStarted = 0)
      (ap : s.aps l = .reading got) (short : got.length < 8) (unread : Unread s v)
      (written : ∀ i < 8, s.stack i = stackByte v i)
      (sofar : ∀ i < got.length, got.getD i 0 = stackByte v i)

structure StartInv (s : StartState) : Prop where
  told : ∀ l v, s.aps l = .running v → v ∈ s.published
  apart : ∀ l m v, s.aps l = .running v → s.aps m = .running v → l = m
  own : OwnStarts s
  stage : ∃ l, (∀ m ≠ l, (s.aps m).settled = true) ∧ Stage s l

section Step

variable {s t : StartState} {l m v : Nat}

theorem Unread.keep (unread : Unread s v)
    (same : ∀ l v, t.aps l = .running v → s.aps l = .running v)
    (kept : ∀ v ∈ s.published, v ∈ t.published) : Unread t v :=
  ⟨unread.word, kept v unread.published, fun l now => unread.unread l (same l v now)⟩

theorem StartInv.keep (inv : StartInv s)
    (same : ∀ l v, t.aps l = .running v → s.aps l = .running v)
    (kept : ∀ v ∈ s.published, v ∈ t.published) (own : OwnStarts t)
    (stage : ∃ l, (∀ m ≠ l, (t.aps m).settled = true) ∧ Stage t l) : StartInv t where
  told l v now := kept v (inv.told l v (same l v now))
  apart l m v now now' := inv.apart l m v (same l v now) (same m v now')
  own := own
  stage := stage

theorem update_running {aps : Nat → ApPhase} {p : ApPhase} (not : ∀ v, p ≠ .running v)
    (k v : Nat) (now : Function.update aps l p k = .running v) : aps k = .running v := by
  by_cases here : k = l
  · subst here
    rw [Function.update_self] at now
    exact absurd now (not v)
  · rwa [Function.update_of_ne here] at now

theorem update_others {aps : Nat → ApPhase} {p : ApPhase}
    (others : ∀ m ≠ l, (aps m).settled = true) :
    ∀ m ≠ l, (Function.update aps l p m).settled = true := by
  intro m other
  rw [Function.update_of_ne other]
  exact others m other

theorem only_unsettled (others : ∀ m ≠ l, (s.aps m).settled = true)
    (busy : (s.aps m).settled = false) : m = l := by
  by_contra other
  rw [others m other] at busy
  cases busy

theorem Stage.of_settled (stage : Stage s l) (ready : (s.aps l).settled = true) :
    s.hasStarted = 0 := by
  cases stage with
  | settled _ flag _ | booting _ flag _ | answered _ _ flag _ _ _
  | reading _ _ _ flag _ _ _ _ _ => exact flag
  | asking _ _ ap _ | publishing _ _ _ _ ap _ _ _ =>
    rw [ap] at ready
    cases ready

theorem Stage.of_polling (stage : Stage s l) {again : Bool} (bsp : s.bsp = .polling m again) :
    m = l ∧ (s.hasStarted = 0 ∧ s.aps l = .booting ∨
      s.hasStarted ≠ 0 ∧ s.aps l = .spinning ∧ l ∈ s.since) := by
  cases stage with
  | booting loop flag ap =>
    rw [bsp] at loop
    rcases loop with no | ⟨_, same⟩
    · cases no
    · cases same
      exact ⟨rfl, .inl ⟨flag, ap⟩⟩
  | asking loop flag ap own =>
    rw [bsp] at loop
    rcases loop with no | ⟨_, same⟩
    · cases no
    · cases same
      exact ⟨rfl, .inr ⟨flag, ap, own⟩⟩
  | settled no _ _ | publishing _ _ no _ _ _ _ _ | answered _ no _ _ _ _
  | reading _ _ no _ _ _ _ _ _ =>
    rw [bsp] at no
    cases no

theorem Stage.of_publishing (stage : Stage s l) {n : Nat} (bsp : s.bsp = .publishing m v n) :
    m = l ∧ s.hasStarted ≠ 0 ∧ s.aps l = .spinning ∧ l ∈ s.since ∧ Unread s v ∧
      ∀ i < n, s.stack i = stackByte v i := by
  cases stage with
  | publishing _ _ same flag ap own unread written =>
    rw [bsp] at same
    cases same
    exact ⟨rfl, flag, ap, own, unread, written⟩
  | settled no _ _ | answered _ no _ _ _ _ | reading _ _ no _ _ _ _ _ _ =>
    rw [bsp] at no
    cases no
  | booting loop _ _ | asking loop _ _ _ =>
    rw [bsp] at loop
    rcases loop with no | ⟨_, no⟩ <;> cases no

theorem Stage.of_reading (stage : Stage s l) {got : List (BitVec 8)}
    (reads : s.aps l = .reading got) : ∃ v, s.bsp = .idle ∧ s.hasStarted = 0 ∧ got.length < 8 ∧
      Unread s v ∧ (∀ i < 8, s.stack i = stackByte v i) ∧
      ∀ i < got.length, got.getD i 0 = stackByte v i := by
  cases stage with
  | reading v _ bsp flag ap short unread written sofar =>
    rw [reads] at ap
    cases ap
    exact ⟨v, bsp, flag, short, unread, written, sofar⟩
  | settled _ _ ready =>
    rw [reads] at ready
    cases ready
  | booting _ _ ap | asking _ _ ap _ | publishing _ _ _ _ ap _ _ _ | answered _ _ _ ap _ _ =>
    rw [reads] at ap
    cases ap

theorem StartInv.call (inv : StartInv s) (turn : ∀ l, (s.aps l).settled = true)
    (step : startStep s (.call m) = some t) : StartInv t := by
  obtain ⟨l, others, stage⟩ := inv.stage
  have flag := stage.of_settled (turn l)
  simp only [startStep] at step
  split at step
  · cases step
    refine inv.keep (update_running fun _ => ApPhase.noConfusion) (fun _ => id) inv.own ?_
    exact ⟨m, update_others fun k _ => turn k, .booting (.inr ⟨false, rfl⟩) flag
      (Function.update_self m _ s.aps)⟩
  · cases step

theorem StartInv.poll (inv : StartInv s) (fresh : s.hasStarted ≠ 0 → v % 2 ^ 64 ∉ s.published)
    (step : startStep s (.poll v) = some t) : StartInv t := by
  obtain ⟨l, others, stage⟩ := inv.stage
  simp only [startStep] at step
  split at step
  · rename_i k again bsp
    split at step
    · rename_i flag
      obtain ⟨rfl, ⟨clear, _⟩ | ⟨_, ap, own⟩⟩ := stage.of_polling bsp
      · exact absurd clear flag
      · cases step
        have kept : ∀ w ∈ s.published, w ∈ s.published ++ [v % 2 ^ 64] :=
          fun _ => List.mem_append_left _
        refine inv.keep (fun _ _ => id) kept inv.own ⟨k, others, ?_⟩
        refine .publishing (v % 2 ^ 64) 0 rfl flag ap own ⟨Nat.mod_lt _ (by decide), ?_, ?_⟩ ?_
        · exact List.mem_append_right _ (List.mem_singleton.mpr rfl)
        · exact fun k now => fresh flag (inv.told k _ now)
        · exact fun _ no => absurd no (Nat.not_lt_zero _)
    · cases step
      exact inv
  · cases step

theorem StartInv.timeout (inv : StartInv s) (step : startStep s .timeout = some t) :
    StartInv t := by
  obtain ⟨l, others, stage⟩ := inv.stage
  simp only [startStep] at step
  split at step
  · rename_i k bsp
    obtain ⟨rfl, now⟩ := stage.of_polling bsp
    cases step
    refine inv.keep (fun _ _ => id) (fun _ => id) inv.own ⟨k, others, ?_⟩
    rcases now with ⟨flag, ap⟩ | ⟨flag, ap, own⟩
    · exact .booting (.inr ⟨true, rfl⟩) flag ap
    · exact .asking (.inr ⟨true, rfl⟩) flag ap own
  · rename_i k bsp
    obtain ⟨rfl, now⟩ := stage.of_polling bsp
    cases step
    refine inv.keep (fun _ _ => id) (fun _ => id) ?_ ⟨k, others, ?_⟩
    · intro r listed zero
      rcases List.mem_append.mp listed with before | new
      · exact inv.own r before zero
      · rw [List.mem_singleton.mp new] at zero
        cases zero
    · rcases now with ⟨flag, ap⟩ | ⟨flag, ap, own⟩
      · exact .booting (.inl rfl) flag ap
      · exact .asking (.inl rfl) flag ap own
  · cases step

theorem StartInv.publish (inv : StartInv s) (step : startStep s .publish = some t) :
    StartInv t := by
  obtain ⟨l, others, stage⟩ := inv.stage
  simp only [startStep] at step
  split at step
  · rename_i k w n bsp
    obtain ⟨rfl, flag, ap, own, unread, written⟩ := stage.of_publishing bsp
    split at step
    · cases step
      refine inv.keep (fun _ _ => id) (fun _ => id) inv.own ⟨k, others, ?_⟩
      refine .publishing w (n + 1) rfl flag ap own (unread.keep (fun _ _ => id) fun _ => id) ?_
      intro i below
      by_cases last : i = n
      · rw [last]
        exact Function.update_self n _ s.stack
      · exact (Function.update_of_ne last _ s.stack).trans (written i (by omega))
    · cases step
      refine inv.keep (fun _ _ => id) (fun _ => id) ?_ ⟨k, others, ?_⟩
      · intro r listed zero
        rcases List.mem_append.mp listed with before | new
        · exact inv.own r before zero
        · rw [List.mem_singleton.mp new]
          exact decide_eq_true own
      · exact .answered w rfl rfl ap (unread.keep (fun _ _ => id) fun _ => id)
          fun i below => written i (by omega)
  · cases step

theorem StartInv.start (inv : StartInv s) (step : startStep s (.start m) = some t) :
    StartInv t := by
  obtain ⟨l, others, stage⟩ := inv.stage
  simp only [startStep] at step
  split at step
  · rename_i boots
    obtain rfl := only_unsettled others (show (s.aps m).settled = false by rw [boots]; rfl)
    have bsp : s.bsp = .idle ∨ ∃ again, s.bsp = .polling m again := by
      cases stage with
      | booting bsp _ _ => exact bsp
      | settled _ _ ready =>
        rw [boots] at ready
        cases ready
      | asking _ _ ap _ | publishing _ _ _ _ ap _ _ _ | answered _ _ _ ap _ _
      | reading _ _ _ _ ap _ _ _ _ =>
        rw [boots] at ap
        cases ap
    cases step
    refine inv.keep (update_running fun _ => ApPhase.noConfusion) (fun _ => id) inv.own ?_
    exact ⟨m, update_others others, .asking bsp Nat.one_ne_zero (Function.update_self m _ s.aps)
      List.mem_cons_self⟩
  · cases step

theorem StartInv.spin (inv : StartInv s) (step : startStep s (.spin m) = some t) :
    StartInv t := by
  obtain ⟨l, others, stage⟩ := inv.stage
  simp only [startStep] at step
  split at step
  · rename_i spins
    obtain rfl := only_unsettled others (show (s.aps m).settled = false by rw [spins]; rfl)
    split at step
    · rename_i clear
      cases step
      refine inv.keep (update_running fun _ => ApPhase.noConfusion) (fun _ => id) inv.own
        ⟨m, update_others others, ?_⟩
      cases stage with
      | answered v bsp flag _ unread written =>
        exact .reading v [] bsp flag (Function.update_self m _ s.aps) (by decide)
          (unread.keep (update_running fun _ => ApPhase.noConfusion) fun _ => id) written
          fun _ no => absurd no (Nat.not_lt_zero _)
      | asking _ flag _ _ | publishing _ _ _ flag _ _ _ _ => exact absurd clear flag
      | settled _ _ ready =>
        rw [spins] at ready
        cases ready
      | booting _ _ ap | reading _ _ _ _ ap _ _ _ _ =>
        rw [spins] at ap
        cases ap
    · cases step
      exact inv
  · cases step

theorem read_stackByte {got : Memory} (word : v < 2 ^ 64)
    (bytes : ∀ i < 8, got i = stackByte v i) : read got 0 8 = v := by
  have same : read got 0 8 = read (write got 0 8 v) 0 8 := by
    apply read_congr
    intro x _ below
    rw [write, if_pos (by omega), bytes x (by omega)]
    rfl
  rw [same, read_write_same]
  exact Nat.mod_eq_of_lt word

theorem StartInv.gets (inv : StartInv s) (others : ∀ k ≠ m, (s.aps k).settled = true)
    (bsp : s.bsp = .idle) (flag : s.hasStarted = 0) (unread : Unread s v) :
    StartInv (s.setAp m (.running v)) := by
  have now : (s.setAp m (.running v)).aps m = .running v := Function.update_self m _ s.aps
  have was : ∀ k w, k ≠ m → (s.setAp m (.running v)).aps k = .running w →
      s.aps k = .running w := by
    intro k w other at_
    exact (Function.update_of_ne other _ s.aps).symm.trans at_
  constructor
  · intro k w at_
    by_cases here : k = m
    · rw [here, now] at at_
      cases at_
      exact unread.published
    · exact inv.told k w (was k w here at_)
  · intro j k w at_ at'
    by_cases here : j = m
    · by_cases there : k = m
      · rw [here, there]
      · rw [here, now] at at_
        cases at_
        exact absurd (was k v there at') (unread.unread k)
    · by_cases there : k = m
      · rw [there, now] at at'
        cases at'
        exact absurd (was j v here at_) (unread.unread j)
      · exact inv.apart j k w (was j w here at_) (was k w there at')
  · exact inv.own
  · exact ⟨m, update_others others, .settled bsp flag (by rw [now]; rfl)⟩

theorem StartInv.load (inv : StartInv s) (step : startStep s (.load m) = some t) :
    StartInv t := by
  obtain ⟨l, others, stage⟩ := inv.stage
  simp only [startStep] at step
  split at step
  · rename_i got reads
    obtain rfl := only_unsettled others (show (s.aps m).settled = false by rw [reads]; rfl)
    obtain ⟨v, bsp, flag, short, unread, written, sofar⟩ := stage.of_reading reads
    cases step
    have next : ∀ i < got.length + 1,
        (got ++ [s.stack got.length]).getD i 0 = stackByte v i := by
      intro i below
      rcases Nat.lt_or_eq_of_le (Nat.le_of_lt_succ below) with before | rfl
      · rw [List.getD_append _ _ _ _ before]
        exact sofar i before
      · rw [List.getD_append_right _ _ _ _ (Nat.le_refl _), Nat.sub_self]
        exact written _ short
    by_cases all : (got ++ [s.stack got.length]).length = 8
    · have whole : got.length + 1 = 8 := by simpa using all
      rw [if_pos all, read_stackByte unread.word fun i below => next i (by omega)]
      exact inv.gets others bsp flag unread
    · rw [if_neg all]
      refine inv.keep (update_running fun _ => ApPhase.noConfusion) (fun _ => id) inv.own
        ⟨m, update_others others, ?_⟩
      rw [List.length_append, List.length_singleton] at all
      refine .reading v _ bsp flag (Function.update_self m _ s.aps) ?_
        (unread.keep (update_running fun _ => ApPhase.noConfusion) fun _ => id) written ?_
      · rw [List.length_append, List.length_singleton]
        omega
      · rw [List.length_append, List.length_singleton]
        exact next
  · cases step

theorem StartInv.step (inv : StartInv s) {e : StartEvent} (turn : InTurn s e)
    (step : startStep s e = some t) : StartInv t := by
  cases e with
  | call l => exact inv.call turn step
  | poll v => exact inv.poll turn step
  | timeout => exact inv.timeout step
  | publish => exact inv.publish step
  | start l => exact inv.start step
  | spin l => exact inv.spin step
  | load l => exact inv.load step

end Step

theorem startInitial_inv (stack : Memory) : StartInv (startInitial stack) where
  told _ _ now := nomatch now
  apart _ _ _ now := nomatch now
  own := fun _ no => nomatch no
  stage := ⟨0, fun _ _ => rfl, .settled rfl rfl rfl⟩

theorem starts_in_turn (stack : Memory) (events before : List StartEvent) (s : StartState)
    (turn : All startStep InTurn (startInitial stack) events) (part : before <+: events)
    (reached : run startStep (startInitial stack) before = some s) :
    StacksApart s ∧ OwnStarts s := by
  have inv := run_holds (fun _ _ _ inv => inv.step) part (startInitial_inv stack) turn reached
  exact ⟨fun l m v _ => inv.apart l m v, inv.own⟩

/- What the boot processor does when it sees the flag: the bytes of the stack and the flag. -/
def publishAll : List StartEvent := List.replicate 9 .publish

def readStack (lapic : Nat) : List StartEvent := .spin lapic :: List.replicate 8 (.load lapic)

def wholeStart (lapic stack : Nat) : List StartEvent :=
  [.call lapic, .start lapic, .poll stack] ++ (publishAll ++ readStack lapic)

theorem wholeStart_inTurn {s : StartState} {l v : Nat}
    (settled : ∀ l, (s.aps l).settled = true) (fresh : v % 2 ^ 64 ∉ s.published) :
    All startStep InTurn s (wholeStart l v) := by
  refine all_append ⟨settled, fun s₁ eq₁ => ⟨trivial, fun s₂ eq₂ => ⟨fun _ => ?_, fun _ _ =>
    trivial⟩⟩⟩ fun s' _ => all_always (fun e listed s => ?_) s'
  · simp only [startStep] at eq₁ eq₂
    split at eq₁
    · cases eq₁
      split at eq₂
      · cases eq₂
        exact fresh
      · cases eq₂
    · cases eq₁
  · have kind : e = .publish ∨ e = .spin l ∨ e = .load l := by
      simpa [publishAll, readStack] using listed
    rcases kind with rfl | rfl | rfl <;> trivial

theorem starts_in_turn_two : ∃ s,
    run startStep (startInitial fun _ => 0) (wholeStart 1 0x5000 ++ wholeStart 2 0x9000) = some s ∧
      s.aps 1 = .running 0x5000 ∧ s.aps 2 = .running 0x9000 ∧ StacksApart s ∧ OwnStarts s := by
  have turn : All startStep InTurn (startInitial fun _ => 0)
      (wholeStart 1 0x5000 ++ wholeStart 2 0x9000) := by
    refine all_append (wholeStart_inTurn (fun _ => rfl) (by decide)) fun s back => ?_
    cases back
    refine wholeStart_inTurn (fun l => ?_) (by decide)
    by_cases one : l = 1
    · subst one
      decide
    · simp [StartState.setAp, one, startInitial, ApPhase.settled]
  exact ⟨_, rfl, by decide, by decide, starts_in_turn _ _ _ _ turn List.prefix_rfl rfl⟩

/-- The second call begins before the first processor has looked at the flag again. -/
def twoAtOnce : List StartEvent :=
  [.call 1, .start 1, .poll 0x5000] ++ publishAll ++ [.call 2, .start 2, .poll 0x9000] ++
    publishAll ++ readStack 1 ++ readStack 2

/-- The first processor starts so late that it answers the second call. -/
def lateStart : List StartEvent :=
  [.call 1, .timeout, .timeout, .call 2, .start 1, .poll 0x5000] ++ publishAll

theorem starts_out_of_turn :
    (∃ s, run startStep (startInitial fun _ => 0) twoAtOnce = some s ∧
      s.aps 1 = .running 0x9000 ∧ s.aps 2 = .running 0x9000 ∧ ¬StacksApart s) ∧
    ∃ s, run startStep (startInitial fun _ => 0) lateStart = some s ∧
      s.returned = [⟨1, 1, false⟩, ⟨2, 0, false⟩] ∧ ¬OwnStarts s := by
  refine ⟨⟨_, rfl, by decide, by decide, fun apart => ?_⟩, ⟨_, rfl, by decide, fun own => ?_⟩⟩
  · exact absurd (apart 1 2 0x9000 (by decide) (by decide) (by decide)) (by decide)
  · exact absurd (own ⟨2, 0, false⟩ (by decide) rfl) (by decide)

end Gapxos
