import Mathlib.Logic.Function.Basic
import Gapxos.Lib.Runs

/-! Calls that share a state behind a lock. A thread that waits exchanges the lock with
`true` until it finds it `false`; what it does then is a run of small steps, and its last
store gives the lock back. The scheduler may run the threads in any order. -/
namespace Locked
open Runs

structure Guarded (S L C R : Type) where
  locked : S → Bool
  lock : S → S
  /-- where the section of a call begins; a call that has none is refused at once -/
  enter : C → Option L
  refused : C → R
  /-- one step inside; it may fail to come back -/
  micro : L → S → Option (L × S)
  /-- the answer of the call, at the end of its section -/
  answer : L → Option R
  unlock : L → S → S
  locked_lock : ∀ s, locked (lock s) = true
  lock_locked : ∀ s, locked s = true → lock s = s
  locked_micro : ∀ l s r, micro l s = some r → locked r.2 = locked s
  locked_unlock : ∀ l s, locked (unlock l s) = false

inductive Thread (L C : Type)
  | idle
  | waiting (c : C) (l : L)
  | inside (c : C) (l : L)

/-- `log` has the calls that have returned, in that order. -/
structure State (S L C R T : Type) where
  shared : S
  threads : T → Thread L C
  log : List (T × C × R)

/-- The scheduler lets a thread begin a call, or go on with the one it is in. -/
inductive Event (T C : Type)
  | call (t : T) (c : C)
  | go (t : T)

variable {S L C R T : Type} (g : Guarded S L C R)

def State.start (s : S) : State S L C R T := ⟨s, fun _ => .idle, []⟩

/-- A section that is run without a break. -/
inductive Whole : L → S → R → S → Prop
  | leave {l s r} (ended : g.answer l = some r) : Whole l s r (g.unlock l s)
  | micro {l s r s'} {next : L × S} (on : g.answer l = none) (one : g.micro l s = some next)
      (rest : Whole next.1 next.2 r s') : Whole l s r s'

inductive Partly (l : L) (s : S) : L → S → Prop
  | refl : Partly l s l s
  | snoc {l' s'} {next : L × S} (before : Partly l s l' s') (on : g.answer l' = none)
      (one : g.micro l' s' = some next) : Partly l s next.1 next.2

/-- A call that nothing disturbs; `P` is what it finds, if it enters its section. -/
inductive Alone (P : S → C → Prop) (s : S) (c : C) : R → S → Prop
  | refused (none : g.enter c = none) : Alone P s c (g.refused c) s
  | whole {l r s'} (enters : g.enter c = some l) (free : g.locked s = false) (finds : P s c)
      (run : Whole g l (g.lock s) r s') : Alone P s c r s'

inductive Serial (P : S → C → Prop) (s : S) : List (T × C × R) → S → Prop
  | nil : Serial P s [] s
  | snoc {log s' s''} {t : T} {c : C} {r : R} (before : Serial P s log s')
      (one : Alone g P s' c r s'') : Serial P s (log ++ [(t, c, r)]) s''

/-- Nobody is inside, or one thread that has got somewhere in its section since the state
`base`. -/
inductive Now (P : S → C → Prop) (base : S) (x : State S L C R T) : Prop
  | free (same : x.shared = base) (nobody : ∀ t c l, x.threads t ≠ .inside c l)
  | held {t : T} {c : C} {l₀ l : L} (here : x.threads t = .inside c l)
      (only : ∀ u d m, x.threads u = .inside d m → u = t) (finds : P base c)
      (enters : g.enter c = some l₀) (got : Partly g l₀ (g.lock base) l x.shared)

/-- The state is that of a serial run of the calls of the log, and of the part of a call
that one thread may be in. -/
structure Serialized (P : S → C → Prop) (s base : S) (x : State S L C R T) : Prop where
  serial : Serial g P s x.log base
  unlocked : g.locked base = false
  waits : ∀ t c l, x.threads t = .waiting c l → g.enter c = some l
  now : Now g P base x

def Admits (P : S → C → Prop) (x : State S L C R T) : Event T C → Prop
  | .call _ _ => True
  | .go t => ∀ c l, x.threads t = .waiting c l → g.locked x.shared = false → P x.shared c

section Serial

variable {g} {P : S → C → Prop} {s base : S} {x : State S L C R T} {t u : T} {l l' : L} {c : C}

theorem Partly.locked {s s' : S} (got : Partly g l s l' s') : g.locked s' = g.locked s := by
  induction got with
  | refl => rfl
  | snoc _ _ one ih => exact (g.locked_micro _ _ _ one).trans ih

theorem Whole.rest {s s' s'' : S} {r : R} (whole : Whole g l s r s'') (got : Partly g l s l' s') :
    Whole g l' s' r s'' := by
  induction got with
  | refl => exact whole
  | snoc _ on one ih =>
    cases ih with
    | leave ended =>
      rw [on] at ended
      cases ended
    | micro on' one' rest =>
      rw [one] at one'
      cases one'
      exact rest

theorem Whole.unlocked {s s' : S} {r : R} (whole : Whole g l s r s') : g.locked s' = false := by
  induction whole with
  | leave => exact g.locked_unlock _ _
  | micro _ _ _ ih => exact ih

theorem Partly.whole {s s' s'' : S} {r : R} (got : Partly g l s l' s')
    (rest : Whole g l' s' r s'') : Whole g l s r s'' := by
  induction got with
  | refl => exact rest
  | snoc _ on one ih => exact ih (.micro on one rest)

/- A section, by where it begins. -/
theorem whole_leave {s s' : S} {r a : R} (ended : g.answer l = some a) :
    Whole g l s r s' ↔ r = a ∧ s' = g.unlock l s := by
  constructor
  · intro whole
    cases whole with
    | leave ended' =>
      rw [ended] at ended'
      cases ended'
      exact ⟨rfl, rfl⟩
    | micro on =>
      rw [on] at ended
      cases ended
  · rintro ⟨rfl, rfl⟩
    exact .leave ended

theorem whole_micro {s s' : S} {r : R} {next : L × S} (on : g.answer l = none)
    (one : g.micro l s = some next) : Whole g l s r s' ↔ Whole g next.1 next.2 r s' := by
  constructor
  · intro whole
    exact whole.rest (.snoc .refl on one)
  · exact .micro on one

theorem not_whole {s s' : S} {r : R} (on : g.answer l = none) (fails : g.micro l s = none) :
    ¬ Whole g l s r s' := by
  intro whole
  cases whole with
  | leave ended =>
    rw [on] at ended
    cases ended
  | micro _ one =>
    rw [fails] at one
    cases one

theorem whole_loop (place : Nat → L) {n : Nat} {f : S → Nat → S} {s s' : S} {r : R}
    (on : ∀ i, g.answer (place i) = none)
    (pass : ∀ i s, i < n → g.micro (place i) s = some (place (i + 1), f s i))
    (out : ∀ s, g.micro (place n) s = some (l, s)) {i k : Nat} (left : i + k = n) :
    Whole g (place i) s r s' ↔ Whole g l ((List.range' i k).foldl f s) r s' := by
  induction k generalizing i s with
  | zero =>
    obtain rfl : i = n := left
    exact whole_micro (on i) (out s)
  | succ k ih => exact (whole_micro (on i) (pass i s (by omega))).trans (ih (by omega))

theorem Serial.keeps {Inv : List (T × C × R) → S → Prop} {log : List (T × C × R)}
    (keep : ∀ log s t c r s', Inv log s → Alone g P s c r s' → Inv (log ++ [(t, c, r)]) s')
    (serial : Serial g P s log base) (first : Inv [] s) : Inv log base := by
  induction serial with
  | nil => exact first
  | snoc _ one ih => exact keep _ _ _ _ _ _ ih one

theorem Serialized.locked_iff (ser : Serialized g P s base x) :
    g.locked x.shared = true ↔ ∃ t c l, x.threads t = .inside c l := by
  cases ser.now with
  | free same nobody =>
    rw [same, ser.unlocked]
    constructor
    · intro impossible
      cases impossible
    · rintro ⟨t, c, l, inside⟩
      exact absurd inside (nobody t c l)
  | held here _ _ _ got =>
    rw [got.locked, g.locked_lock]
    exact ⟨fun _ => ⟨_, _, _, here⟩, fun _ => rfl⟩

theorem Serialized.exclusive (ser : Serialized g P s base x) {d : C} {m : L}
    (one : x.threads t = .inside c l) (other : x.threads u = .inside d m) : t = u := by
  cases ser.now with
  | free _ nobody => exact absurd one (nobody _ _ _)
  | held _ only _ _ _ => exact (only _ _ _ one).trans (only _ _ _ other).symm

theorem Serialized.at_rest (ser : Serialized g P s base x) (free : g.locked x.shared = false) :
    x.shared = base := by
  cases ser.now with
  | free same _ => exact same
  | held here _ _ _ _ =>
    rw [ser.locked_iff.mpr ⟨_, _, _, here⟩] at free
    cases free

theorem Serialized.part (ser : Serialized g P s base x) (here : x.threads t = .inside c l) :
    P base c ∧ ∃ l₀, g.enter c = some l₀ ∧ Partly g l₀ (g.lock base) l x.shared := by
  cases ser.now with
  | free _ nobody => exact absurd here (nobody _ _ _)
  | held here' only finds enters got =>
    obtain rfl := only _ _ _ here
    rw [here] at here'
    cases here'
    exact ⟨finds, _, enters, got⟩

theorem start_serialized (free : g.locked s = false) :
    Serialized g P s s (State.start s : State S L C R T) :=
  ⟨.nil, free, by simp [State.start], .free rfl (by simp [State.start])⟩

end Serial

section Machine

variable [DecidableEq T]

def State.put (x : State S L C R T) (t : T) (thread : Thread L C) : State S L C R T :=
  { x with threads := Function.update x.threads t thread }

/- A thread that cannot do what it is asked to do does nothing. -/
def begin (x : State S L C R T) (t : T) (c : C) : State S L C R T :=
  match x.threads t with
  | .idle =>
    match g.enter c with
    | none => { x with log := x.log ++ [(t, c, g.refused c)] }
    | some l => x.put t (.waiting c l)
  | _ => x

def exchange (x : State S L C R T) (t : T) (c : C) (l : L) : State S L C R T :=
  { x with shared := g.lock x.shared }.put t
    (if g.locked x.shared then .waiting c l else .inside c l)

def work (x : State S L C R T) (t : T) (c : C) (l : L) : Option (State S L C R T) :=
  match g.answer l with
  | none => (g.micro l x.shared).map fun r => { x with shared := r.2 }.put t (.inside c r.1)
  | some r => some ({ x with shared := g.unlock l x.shared, log := x.log ++ [(t, c, r)] }.put t
      .idle)

def step (x : State S L C R T) : Event T C → Option (State S L C R T)
  | .call t c => some (begin g x t c)
  | .go t =>
    match x.threads t with
    | .idle => some x
    | .waiting c l => some (exchange g x t c l)
    | .inside c l => work g x t c l

variable {g} {P : S → C → Prop} {s base : S} {x y : State S L C R T} {t u : T} {l : L} {c : C}
  {th : Thread L C}

theorem put_self : (x.put t th).threads t = th := Function.update_self ..

theorem put_other (ne : u ≠ t) : (x.put t th).threads u = x.threads u :=
  Function.update_of_ne ne ..

theorem put_inside {d : C} {m : L} (inside : (x.put t th).threads u = .inside d m) :
    u = t ∧ th = .inside d m ∨ x.threads u = .inside d m := by
  by_cases self : u = t
  · subst self
    rw [put_self] at inside
    exact .inl ⟨rfl, inside⟩
  · rw [put_other self] at inside
    exact .inr inside

theorem put_waits (waits : ∀ t c l, x.threads t = .waiting c l → g.enter c = some l)
    (new : ∀ c l, th = .waiting c l → g.enter c = some l) :
    ∀ u c l, (x.put t th).threads u = .waiting c l → g.enter c = some l := by
  intro u c l waiting
  by_cases self : u = t
  · subst self
    rw [put_self] at waiting
    exact new c l waiting
  · rw [put_other self] at waiting
    exact waits u c l waiting

theorem Now.move (now : Now g P base x) (out : ∀ c l, x.threads t ≠ .inside c l)
    (out' : ∀ c l, th ≠ .inside c l) : Now g P base (x.put t th) := by
  have old : ∀ u d m, (x.put t th).threads u = .inside d m → x.threads u = .inside d m := by
    intro u d m inside
    rcases put_inside inside with ⟨-, here⟩ | before
    · exact absurd here (out' d m)
    · exact before
  cases now with
  | free same nobody => exact .free same fun u d m inside => nobody u d m (old u d m inside)
  | @held v c l₀ l here only finds enters got =>
    have ne : v ≠ t := by
      rintro rfl
      exact out c l here
    exact .held ((put_other ne).trans here) (fun u d m inside => only u d m (old u d m inside))
      finds enters got

theorem Serialized.begin (ser : Serialized g P s base x) (t : T) (c : C) :
    Serialized g P s base (begin g x t c) := by
  unfold Locked.begin
  cases at_t : x.threads t with
  | idle =>
    cases enters : g.enter c with
    | none =>
      refine ⟨.snoc ser.serial (.refused enters), ser.unlocked, ser.waits, ?_⟩
      cases ser.now with
      | free same nobody => exact .free same nobody
      | held here only finds enters got => exact .held here only finds enters got
    | some l =>
      refine ⟨ser.serial, ser.unlocked, put_waits ser.waits fun d m same => ?_,
        ser.now.move (by simp [at_t]) (by simp)⟩
      cases same
      exact enters
  | waiting => exact ser
  | inside => exact ser

theorem Serialized.exchange (ser : Serialized g P s base x) (here : x.threads t = .waiting c l)
    (finds : g.locked x.shared = false → P x.shared c) :
    Serialized g P s base (exchange g x t c l) := by
  have enters := ser.waits t c l here
  unfold Locked.exchange
  cases locked : g.locked x.shared with
  | true =>
    rw [if_pos rfl, g.lock_locked _ locked]
    refine ⟨ser.serial, ser.unlocked, put_waits ser.waits fun d m same => ?_,
      ser.now.move (by simp [here]) (by simp)⟩
    cases same
    exact enters
  | false =>
    rw [if_neg (by simp), ser.at_rest locked]
    refine ⟨ser.serial, ser.unlocked, put_waits ser.waits (by simp), .held put_self
      (fun u d m inside => ?_) (ser.at_rest locked ▸ finds locked) enters .refl⟩
    rcases put_inside inside with ⟨self, -⟩ | before
    · exact self
    · rw [ser.locked_iff.mpr ⟨u, d, m, before⟩] at locked
      cases locked

theorem work_micro (on : g.answer l = none) : work g x t c l =
    (g.micro l x.shared).map fun r => { x with shared := r.2 }.put t (.inside c r.1) := by
  rw [work, on]

theorem work_leave {r : R} (ended : g.answer l = some r) : work g x t c l =
    some ({ x with shared := g.unlock l x.shared, log := x.log ++ [(t, c, r)] }.put t .idle) := by
  rw [work, ended]

theorem Serialized.inner (ser : Serialized g P s base x) (here : x.threads t = .inside c l)
    (on : g.answer l = none) {next : L × S} (one : g.micro l x.shared = some next) :
    Serialized g P s base ({ x with shared := next.2 }.put t (.inside c next.1)) := by
  obtain ⟨finds, l₀, enters, got⟩ := ser.part here
  refine ⟨ser.serial, ser.unlocked, put_waits ser.waits (by simp), .held put_self
    (fun u d m inside => ?_) finds enters (got.snoc on one)⟩
  rcases put_inside inside with ⟨self, -⟩ | before
  · exact self
  · exact ser.exclusive before here

theorem Serialized.leave (ser : Serialized g P s base x) (here : x.threads t = .inside c l)
    {r : R} (ended : g.answer l = some r) :
    Serialized g P s (g.unlock l x.shared)
      ({ x with shared := g.unlock l x.shared, log := x.log ++ [(t, c, r)] }.put t .idle) := by
  obtain ⟨finds, l₀, enters, got⟩ := ser.part here
  refine ⟨.snoc ser.serial (.whole enters ser.unlocked finds (got.whole (.leave ended))),
    g.locked_unlock _ _, put_waits ser.waits (by simp), .free rfl fun u d m inside => ?_⟩
  rcases put_inside inside with ⟨-, impossible⟩ | before
  · cases impossible
  · obtain rfl := ser.exclusive before here
    rw [put_self] at inside
    cases inside

theorem Serialized.work (ser : Serialized g P s base x) (here : x.threads t = .inside c l)
    (eq : work g x t c l = some y) : ∃ base', Serialized g P s base' y := by
  cases ended : g.answer l with
  | none =>
    rw [work_micro ended] at eq
    obtain ⟨next, one, rfl⟩ := Option.map_eq_some_iff.mp eq
    exact ⟨base, ser.inner here ended one⟩
  | some r =>
    rw [work_leave ended] at eq
    cases eq
    exact ⟨_, ser.leave here ended⟩

theorem step_idle (here : x.threads t = .idle) : step g x (.go t) = some x := by
  simp only [step, here]

theorem step_waiting (here : x.threads t = .waiting c l) :
    step g x (.go t) = some (exchange g x t c l) := by
  simp only [step, here]

theorem step_inside (here : x.threads t = .inside c l) :
    step g x (.go t) = work g x t c l := by
  simp only [step, here]

theorem Serialized.step (ser : Serialized g P s base x) {e : Event T C} (finds : Admits g P x e)
    (eq : step g x e = some y) : ∃ base', Serialized g P s base' y := by
  cases e with
  | call t c =>
    cases eq
    exact ⟨base, ser.begin t c⟩
  | go t =>
    cases here : x.threads t with
    | idle =>
      rw [step_idle here] at eq
      cases eq
      exact ⟨base, ser⟩
    | waiting c l =>
      rw [step_waiting here] at eq
      cases eq
      exact ⟨base, ser.exchange here (finds c l here)⟩
    | inside c l => exact ser.work here ((step_inside here).symm.trans eq)

theorem run_serialized (free : g.locked s = false) {events before : List (Event T C)}
    (part : before <+: events)
    (finds : All (step g) (Admits g P) (State.start s) events)
    (back : run (step g) (State.start s) before = some x) : ∃ base, Serialized g P s base x := by
  refine run_holds (fun y e z (ser : ∃ base, Serialized g P s base y) finds eq => ?_) part
    ⟨s, start_serialized free⟩ finds back
  obtain ⟨base, ser⟩ := ser
  exact ser.step finds eq

section Ends

variable {Inv : List (T × C × R) → S → Prop}
  (keep : ∀ log s t c r s', Inv log s → Alone g P s c r s' → Inv (log ++ [(t, c, r)]) s')
  (ends : ∀ log s c l, Inv log s → P s c → g.locked s = false → g.enter c = some l →
    ∃ r s', Whole g l (g.lock s) r s')
include keep ends

theorem step_returns {e : Event T C} (first : Inv [] s)
    (good : ∃ base, Serialized g P s base x ∧ Inv x.log base) (finds : Admits g P x e) :
    ∃ y, step g x e = some y ∧ ∃ base, Serialized g P s base y ∧ Inv y.log base := by
  obtain ⟨base, ser, inv⟩ := good
  obtain ⟨y, eq⟩ : ∃ y, step g x e = some y := by
    cases e with
    | call t c => exact ⟨_, rfl⟩
    | go t =>
      cases here : x.threads t with
      | idle => exact ⟨_, step_idle here⟩
      | waiting c l => exact ⟨_, step_waiting here⟩
      | inside c l =>
        rw [step_inside here]
        obtain ⟨found, l₀, enters, got⟩ := ser.part here
        obtain ⟨r, s', whole⟩ := ends _ _ _ _ inv found ser.unlocked enters
        cases whole.rest got with
        | leave ended => exact ⟨_, work_leave ended⟩
        | micro on one => exact ⟨_, (work_micro on).trans (by rw [one]; rfl)⟩
  obtain ⟨base', ser'⟩ := ser.step finds eq
  exact ⟨y, eq, base', ser', ser'.serial.keeps keep first⟩

theorem run_returns (free : g.locked s = false) (first : Inv [] s)
    {events before : List (Event T C)} (part : before <+: events)
    (finds : All (step g) (Admits g P) (State.start s) events) :
    ∃ x, run (step g) (State.start s) before = some x ∧
      ∃ base, Serialized g P s base x ∧ Inv x.log base :=
  run_keeps (fun _ _ good finds => step_returns keep ends first good finds) part
    ⟨s, start_serialized free, first⟩ finds

end Ends

theorem Whole.released {s s' : S} {r : R} (whole : Whole g l s r s') (x : State S L C R T)
    (here : x.threads t = .inside c l) (same : x.shared = s) :
    ∃ k y, run (Locked.step g) x (List.replicate k (.go t)) = some y ∧ y.shared = s' ∧
      y.threads t = .idle ∧ y.log = x.log ++ [(t, c, r)] := by
  induction whole generalizing x with
  | leave ended =>
    have last : Locked.step g x (.go t) = _ := (step_inside here).trans (work_leave ended)
    refine ⟨1, _, by rw [List.replicate_one, run, last]; rfl, ?_, put_self, rfl⟩
    rw [← same]
    rfl
  | @micro l s r s' next on one rest ih =>
    obtain ⟨k, y, eq, done⟩ := ih ({ x with shared := next.2 }.put t (.inside c next.1))
      put_self rfl
    refine ⟨k + 1, y, ?_, done⟩
    rw [List.replicate_succ, run, step_inside here, work_micro on, same, one]
    exact eq

end Machine

end Locked
