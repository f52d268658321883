import Gapxos.Apic.Madt

/-! The bytes that the loop of apic_parse_madt reads. The step from entry to entry is a byte of
the table, and the fields of an entry are read without a look at its length. -/
namespace Gapxos
open Bytes

def entryFields : Nat → List (Nat × Nat)
  | 0 => [(2, 1), (3, 1), (4, 4)]
  | 9 => [(4, 4), (8, 4), (12, 4)]
  | 1 => [(2, 1), (4, 4), (8, 4)]
  | 2 => [(3, 1), (4, 4), (8, 2)]
  | 3 => [(2, 2), (4, 4)]
  | 4 => [(2, 1), (3, 2), (5, 1)]
  | 10 => [(4, 4), (2, 2), (8, 1)]
  | 5 => [(4, 8)]
  | _ => []

/-- All that one round reads: the type, the fields, the length. -/
def entryReads (type : Nat) : List (Nat × Nat) := (0, 1) :: entryFields type ++ [(1, 1)]

/-- How far the fields reach. The last three bytes of an x2APIC NMI entry are not read. -/
def entryExtent : Nat → Nat
  | 0 => 8
  | 9 => 16
  | 1 => 12
  | 2 => 10
  | 3 => 8
  | 4 => 6
  | 10 => 9
  | 5 => 12
  | _ => 2

/-- Where the loop is after `k` rounds. -/
def nthEntry (mem : Memory) (start : Nat) : Nat → Nat
  | 0 => start
  | k + 1 => nthEntry mem start k + read mem (nthEntry mem start k + 1) 1

section Entry

variable {mem mem' : Memory} {entry : Nat}

theorem madtEntry_congr (same : ∀ r ∈ entryReads (read mem entry 1),
      read mem' (entry + r.1) r.2 = read mem (entry + r.1) r.2) :
    madtEntry mem' entry = madtEntry mem entry := by
  have type : read mem' entry 1 = read mem entry 1 := same (0, 1) List.mem_cons_self
  have field : ∀ r ∈ entryFields (read mem entry 1),
      read mem' (entry + r.1) r.2 = read mem (entry + r.1) r.2 := fun r inside =>
    same r (List.mem_cons_of_mem _ (List.mem_append_left _ inside))
  unfold madtEntry
  rw [type]
  generalize read mem entry 1 = type at field
  unfold entryFields at field
  split at field <;>
    simp only [List.forall_mem_cons, List.not_mem_nil, false_imp_iff, forall_const,
      and_true] at field <;> simp only [field]

theorem entryReads_within (type n : Nat) :
    (∀ r ∈ entryReads type, r.1 + r.2 ≤ n) ↔ entryExtent type ≤ n := by
  unfold entryReads entryFields
  split <;> simp [entryExtent, *] <;> omega

end Entry

section Loop

variable {world : ApicWorld} {mem mem' : Memory} {end_ start : Nat} {info : ApicInfo}

theorem nthEntry_step (mem : Memory) (start k : Nat) :
    nthEntry mem (start + read mem (start + 1) 1) k = nthEntry mem start (k + 1) := by
  induction k with
  | zero => rfl
  | succ k ih => rw [nthEntry, ih, nthEntry.eq_2 mem start (k + 1)]

theorem start_le_nthEntry (mem : Memory) (start k : Nat) : start ≤ nthEntry mem start k := by
  induction k with
  | zero => exact Nat.le_refl start
  | succ k ih => exact Nat.le_trans ih (Nat.le_add_right _ _)

theorem madtLoop_stuck (less : start < end_) (zero : read mem (start + 1) 1 = 0) (n : Nat)
    (info : ApicInfo) : madtLoop world mem end_ n start info = none := by
  induction n generalizing info with
  | zero => rfl
  | succ n ih => rw [madtLoop, if_pos less, zero, Nat.add_zero, ih]

theorem madtLoop_moves {n : Nat} {out : ApicInfo}
    (back : madtLoop world mem end_ n start info = some out) {k : Nat}
    (less : nthEntry mem start k < end_) : 0 < read mem (nthEntry mem start k + 1) 1 := by
  induction n generalizing start info k with
  | zero => cases back
  | succ n ih =>
    have first : start < end_ := Nat.lt_of_le_of_lt (start_le_nthEntry mem start k) less
    cases k with
    | zero =>
      apply Nat.pos_of_ne_zero
      intro zero
      rw [madtLoop_stuck first zero] at back
      cases back
    | succ k =>
      rw [madtLoop, if_pos first] at back
      rw [← nthEntry_step] at less ⊢
      exact ih back less

theorem madtLoop_back (moves : ∀ k, nthEntry mem start k < end_ →
      0 < read mem (nthEntry mem start k + 1) 1) {n : Nat} (enough : end_ - start < n)
    (info : ApicInfo) : ∃ out, madtLoop world mem end_ n start info = some out := by
  induction n generalizing start info with
  | zero => omega
  | succ n ih =>
    rw [madtLoop]
    split
    · rename_i less
      have now : 0 < read mem (start + 1) 1 := moves 0 less
      refine ih (fun k => ?_) (by omega) _
      rw [nthEntry_step]
      exact moves (k + 1)
    · exact ⟨info, rfl⟩

/-- A memory with the same words where the rounds read is as good as the table itself. -/
theorem madtLoop_congr (same : ∀ k, nthEntry mem start k < end_ →
      ∀ r ∈ entryReads (read mem (nthEntry mem start k) 1),
        read mem' (nthEntry mem start k + r.1) r.2 = read mem (nthEntry mem start k + r.1) r.2)
    (n : Nat) (info : ApicInfo) :
    madtLoop world mem' end_ n start info = madtLoop world mem end_ n start info := by
  induction n generalizing start info with
  | zero => rfl
  | succ n ih =>
    rw [madtLoop, madtLoop]
    split
    · rename_i less
      have first : ∀ r ∈ entryReads (read mem start 1),
          read mem' (start + r.1) r.2 = read mem (start + r.1) r.2 := same 0 less
      have step : read mem' (start + 1) 1 = read mem (start + 1) 1 :=
        first (1, 1) (List.mem_append_right _ List.mem_cons_self)
      rw [madtEntry_congr first, step]
      apply ih
      intro k
      rw [nthEntry_step]
      exact same (k + 1)
    · rfl

end Loop

/- The loop comes back and stays in the table if every entry that it visits has a length and
has all its fields before the end. What it returns depends on no other reads than these. -/
theorem madt_loop_inside_iff (world : ApicWorld) (mem : Memory) (madt : Nat) (info : ApicInfo) :
    let end_ := madt + read mem (madt + 4) 4
    (((∃ n out, madtLoop world mem end_ n (madt + 44) info = some out) ∧
      ∀ k, nthEntry mem (madt + 44) k < end_ →
        ∀ r ∈ entryReads (read mem (nthEntry mem (madt + 44) k) 1),
          madt ≤ nthEntry mem (madt + 44) k + r.1 ∧
            nthEntry mem (madt + 44) k + r.1 + r.2 ≤ end_) ↔
    ∀ k, nthEntry mem (madt + 44) k < end_ →
      0 < read mem (nthEntry mem (madt + 44) k + 1) 1 ∧
        nthEntry mem (madt + 44) k + entryExtent (read mem (nthEntry mem (madt + 44) k) 1) ≤
          end_) ∧
    ∀ mem', (∀ k, nthEntry mem (madt + 44) k < end_ →
        ∀ r ∈ entryReads (read mem (nthEntry mem (madt + 44) k) 1),
          read mem' (nthEntry mem (madt + 44) k + r.1) r.2 =
            read mem (nthEntry mem (madt + 44) k + r.1) r.2) →
      ∀ n, madtLoop world mem' end_ n (madt + 44) info =
        madtLoop world mem end_ n (madt + 44) info := by
  intro end_
  refine ⟨⟨?_, ?_⟩, fun mem' same n => madtLoop_congr same n info⟩
  · rintro ⟨⟨n, out, back⟩, inside⟩ k less
    have fields := (entryReads_within (read mem (nthEntry mem (madt + 44) k) 1)
      (end_ - nthEntry mem (madt + 44) k)).mp fun r field => by
        have here := (inside k less r field).2
        omega
    exact ⟨madtLoop_moves back less, by omega⟩
  · intro good
    refine ⟨⟨_, madtLoop_back (fun k less => (good k less).1) (Nat.lt_succ_self _) info⟩, ?_⟩
    intro k less r field
    have low := start_le_nthEntry mem (madt + 44) k
    have fits := (good k less).2
    have here := (entryReads_within (read mem (nthEntry mem (madt + 44) k) 1)
      (end_ - nthEntry mem (madt + 44) k)).mpr (by omega) r field
    omega

/-- A MADT at 0 of the given length, with one entry. -/
def madtOf (length type entryLength : Nat) : Memory :=
  write (write (write (fun _ => 0) 4 4 length) 44 1 type) 45 1 entryLength

/-- An entry without a length, and a local APIC of which the table has only four bytes. -/
theorem madt_loop_outside :
    (∀ world info n, madtLoop world (madtOf 46 0xff 0) 46 n 44 info = none) ∧
    nthEntry (madtOf 48 0 8) 44 0 < 48 ∧ (4, 4) ∈ entryReads (read (madtOf 48 0 8) 44 1) ∧
      48 < 44 + 4 + 4 :=
  ⟨fun _ info n => madtLoop_stuck (by decide) (by decide) n info, by decide, by decide, by decide⟩

end Gapxos
