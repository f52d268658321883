import Mathlib.Data.List.Infix

/-! Runs of calls on a state. A call may fail to come back. -/
namespace Runs

section Together

/- Computations that fail together. -/
theorem rel_bind {γ δ ε ζ : Type} {R : γ → δ → Prop} {S : ε → ζ → Prop} {x : Option γ}
    {y : Option δ} {f : γ → Option ε} {g : δ → Option ζ} (rel : Option.Rel R x y)
    (next : ∀ a b, x = some a → R a b → Option.Rel S (f a) (g b)) :
    Option.Rel S (x.bind f) (y.bind g) := by
  cases rel with
  | none => exact .none
  | some first => exact next _ _ rfl first

theorem rel_map {γ δ ε ζ : Type} {R : γ → δ → Prop} {S : ε → ζ → Prop} {x : Option γ}
    {y : Option δ} {f : γ → ε} {g : δ → ζ} (rel : Option.Rel R x y)
    (next : ∀ a b, x = some a → R a b → S (f a) (g b)) :
    Option.Rel S (x.map f) (y.map g) := by
  cases rel with
  | none => exact .none
  | some first => exact .some (next _ _ rfl first)

theorem rel_mono {γ δ : Type} {R S : γ → δ → Prop} {x : Option γ} {y : Option δ}
    (rel : Option.Rel R x y) (weaker : ∀ a b, R a b → S a b) : Option.Rel S x y := by
  cases rel with
  | none => exact .none
  | some both => exact .some (weaker _ _ both)

theorem rel_some {γ δ : Type} {R : γ → δ → Prop} {x : Option γ} {y : Option δ} {a : γ}
    (rel : Option.Rel R x y) (first : x = some a) : ∃ b, y = some b ∧ R a b := by
  cases rel with
  | none => cases first
  | some both =>
    cases first
    exact ⟨_, rfl, both⟩

theorem rel_self {γ : Type} (x : Option γ) : Option.Rel (· = ·) x x := by
  cases x with
  | none => exact .none
  | some a => exact .some rfl

end Together

variable {S C : Type} (step : S → C → Option S)

def run (s : S) : List C → Option S
  | [] => some s
  | c :: calls => (step s c).bind fun s => run s calls

/-- Every call of a run is made in a state that has `P` for it. -/
def All (P : S → C → Prop) (s : S) : List C → Prop
  | [] => True
  | c :: calls => P s c ∧ ∀ s', step s c = some s' → All P s' calls

variable {step} {P : S → C → Prop} {Inv : S → Prop}

theorem run_keeps (keep : ∀ s c, Inv s → P s c → ∃ s', step s c = some s' ∧ Inv s')
    {calls before : List C} (part : before <+: calls) {s : S} (inv : Inv s)
    (all : All step P s calls) : ∃ s', run step s before = some s' ∧ Inv s' := by
  induction before generalizing s calls with
  | nil => exact ⟨s, rfl, inv⟩
  | cons c before ih =>
    obtain ⟨rest, rfl⟩ := part
    obtain ⟨now, later⟩ := all
    obtain ⟨s₁, eq, inv₁⟩ := keep s c inv now
    obtain ⟨s₂, eq', inv₂⟩ := ih (List.prefix_append before rest) inv₁ (later s₁ eq)
    exact ⟨s₂, by rw [run, eq, Option.bind_some, eq'], inv₂⟩

theorem run_holds (keep : ∀ s c s', Inv s → P s c → step s c = some s' → Inv s')
    {calls before : List C} (part : before <+: calls) {s s' : S} (inv : Inv s)
    (all : All step P s calls) (back : run step s before = some s') : Inv s' := by
  induction before generalizing s calls with
  | nil =>
    cases back
    exact inv
  | cons c before ih =>
    obtain ⟨rest, rfl⟩ := part
    obtain ⟨s₁, eq, back⟩ := Option.bind_eq_some_iff.mp back
    exact ih (List.prefix_append before rest) (keep s c s₁ inv all.1 eq) (all.2 s₁ eq) back

theorem run_pair {T : Type} {other : T → C → Option T} {R : S → T → Prop}
    (keep : ∀ s t c, R s t → P s c →
      ∃ s' t', step s c = some s' ∧ other t c = some t' ∧ R s' t')
    {calls before : List C} (part : before <+: calls) {s : S} {t : T} (rel : R s t)
    (all : All step P s calls) :
    ∃ s' t', run step s before = some s' ∧ run other t before = some t' ∧ R s' t' := by
  induction before generalizing s t calls with
  | nil => exact ⟨s, t, rfl, rfl, rel⟩
  | cons c before ih =>
    obtain ⟨rest, rfl⟩ := part
    obtain ⟨now, later⟩ := all
    obtain ⟨s₁, t₁, eq, eq', rel₁⟩ := keep s t c rel now
    obtain ⟨s₂, t₂, back, back', rel₂⟩ := ih (List.prefix_append before rest) rel₁ (later s₁ eq)
    exact ⟨s₂, t₂, by rw [run, eq, Option.bind_some, back],
      by rw [run, eq', Option.bind_some, back'], rel₂⟩

theorem run_rel {T : Type} {other : T → C → Option T} {R : S → T → Prop}
    (keep : ∀ s t c, R s t → P s c → Option.Rel R (step s c) (other t c)) {calls : List C} {s : S}
    {t : T} (rel : R s t) (all : All step P s calls) :
    Option.Rel R (run step s calls) (run other t calls) := by
  induction calls generalizing s t with
  | nil => exact .some rel
  | cons c calls ih =>
    exact rel_bind (keep s t c rel all.1) fun s₁ t₁ eq rel₁ => ih rel₁ (all.2 s₁ eq)

theorem run_follows {T : Type} {other : T → C → Option T} {R : S → T → Prop}
    (keep : ∀ s t c s', R s t → step s c = some s' → ∃ t', other t c = some t' ∧ R s' t')
    {calls : List C} {s s' : S} {t : T} (rel : R s t) (back : run step s calls = some s') :
    ∃ t', run other t calls = some t' ∧ R s' t' := by
  induction calls generalizing s t with
  | nil =>
    cases back
    exact ⟨t, rfl, rel⟩
  | cons c calls ih =>
    obtain ⟨s₁, eq, back⟩ := Option.bind_eq_some_iff.mp back
    obtain ⟨t₁, eq', rel₁⟩ := keep s t c s₁ rel eq
    obtain ⟨t', back', rel'⟩ := ih rel₁ back
    exact ⟨t', by rw [run, eq', Option.bind_some, back'], rel'⟩

theorem run_append (calls rest : List C) (s : S) :
    run step s (calls ++ rest) = (run step s calls).bind fun s => run step s rest := by
  induction calls generalizing s with
  | nil => rfl
  | cons c calls ih =>
    rw [List.cons_append, run, run, Option.bind_assoc]
    exact congrArg _ (funext ih)

theorem all_append {calls rest : List C} {s : S} (first : All step P s calls)
    (second : ∀ s', run step s calls = some s' → All step P s' rest) :
    All step P s (calls ++ rest) := by
  induction calls generalizing s with
  | nil => exact second s rfl
  | cons c calls ih =>
    refine ⟨first.1, fun s₁ eq => ih (first.2 s₁ eq) fun s₂ back => second s₂ ?_⟩
    rw [run, eq, Option.bind_some, back]

theorem all_left {calls rest : List C} {s : S} (all : All step P s (calls ++ rest)) :
    All step P s calls := by
  induction calls generalizing s with
  | nil => trivial
  | cons c calls ih => exact ⟨all.1, fun s' eq => ih (all.2 s' eq)⟩

theorem all_right {calls rest : List C} {s s' : S} (all : All step P s (calls ++ rest))
    (back : run step s calls = some s') : All step P s' rest := by
  induction calls generalizing s with
  | nil =>
    cases back
    exact all
  | cons c calls ih =>
    obtain ⟨s₁, eq, back⟩ := Option.bind_eq_some_iff.mp back
    exact ih (all.2 s₁ eq) back

theorem all_always {calls : List C} (always : ∀ c ∈ calls, ∀ s, P s c) (s : S) :
    All step P s calls := by
  induction calls generalizing s with
  | nil => trivial
  | cons c calls ih =>
    obtain ⟨now, later⟩ := List.forall_mem_cons.mp always
    exact ⟨now s, fun s' _ => ih later s'⟩

theorem loop_keeps {T : Type} (Inv : T → Prop) (view : T → S) {f : T → C → T} {g : S → C → S}
    (same : ∀ x c, view (f x c) = g (view x) c)
    (keep : ∀ x c, Inv x → P (view x) c → Inv (f x c)) {x : T} {cs : List C} (inv : Inv x)
    (all : All (fun s c => some (g s c)) P (view x) cs) :
    Inv (cs.foldl f x) ∧ view (cs.foldl f x) = cs.foldl g (view x) := by
  induction cs generalizing x with
  | nil => exact ⟨inv, rfl⟩
  | cons c cs ih =>
    obtain ⟨now, later⟩ := all
    have rest := ih (keep x c inv now) (by rw [same]; exact later _ rfl)
    rw [same] at rest
    exact rest

/-- `P` holds whenever a step of a run that always comes back is made. -/
def Throughout (f : S → C → S) (P : S → Prop) (s : S) : List C → Prop
  | [] => True
  | c :: cs => P s ∧ Throughout f P (f s c) cs

theorem throughout_append {f : S → C → S} {P : S → Prop} {s : S} {cs ds : List C} :
    Throughout f P s (cs ++ ds) ↔ Throughout f P s cs ∧ Throughout f P (cs.foldl f s) ds := by
  induction cs generalizing s with
  | nil => exact (true_and _).symm ▸ Iff.rfl
  | cons c cs ih => rw [List.cons_append, Throughout, Throughout, ih, and_assoc, List.foldl_cons]

theorem Throughout.mono {f : S → C → S} {P Q : S → Prop} {s : S} {cs : List C}
    (all : Throughout f P s cs) (weaker : ∀ s, P s → Q s) : Throughout f Q s cs := by
  induction cs generalizing s with
  | nil => exact trivial
  | cons c cs ih => exact ⟨weaker s all.1, ih all.2⟩

theorem exists_split_cons {α : Type} {x : α} {xs : List α} {P : List α → α → Prop} :
    (∃ before y after, x :: xs = before ++ y :: after ∧ P before y) ↔
      P [] x ∨ ∃ before y after, xs = before ++ y :: after ∧ P (x :: before) y := by
  constructor
  · rintro ⟨before, y, after, split, here⟩
    cases before with
    | nil =>
      cases split
      exact .inl here
    | cons z before =>
      cases split
      exact .inr ⟨before, y, after, rfl, here⟩
  · rintro (here | ⟨before, y, after, rfl, here⟩)
    · exact ⟨[], x, xs, rfl, here⟩
    · exact ⟨x :: before, y, after, rfl, here⟩

end Runs
