import Gapxos.Lib.Windows

/-! acpi.c: the tables that the root table lists, mapped one after the other through
kern_vmm. An access outside the mapped pages, through NULL too, is `none`. -/
namespace Gapxos
open Bytes Windows

section Code

variable (phys : Memory) (bs : List Block)

def sumBytes (hdr : Nat) : Nat → Option (BitVec 8)
  | 0 => some 0
  | n + 1 => do
    let sum ← sumBytes hdr n
    let next ← byte phys bs (hdr + n)
    some (sum + next)

def validateChecksum (hdr : Nat) : Option Bool := do
  let length ← load phys bs (hdr + 4) 4
  let sum ← sumBytes phys bs hdr length
  some (sum = 0)

def sameBytes (table : Nat) (signature : Nat → BitVec 8) : Nat → Nat → Option Bool
  | 0, _ => some true
  | n + 1, i => do
    let next ← byte phys bs (table + i)
    if next ≠ signature i then some false else sameBytes table signature n (i + 1)

def isTable (table : Nat) (signature : Nat → BitVec 8) : Option Bool :=
  sameBytes phys bs table signature 4 0

variable {σ : Type} (vmm : Mapper σ)

/-- Gives NULL for a table whose sum is wrong. `len` has 32 bits. -/
def mmapTable (table : Nat) (s : σ) : Option (Nat × σ) := do
  let (mapped, s) := vmm.map s (table - table % 4096) 2
  let hdr := mapped + table % 4096
  let valid ← validateChecksum phys (vmm.blocks s) hdr
  if !valid then some (0, vmm.free s mapped)
  else do
    let length ← load phys (vmm.blocks s) (hdr + 4) 4
    if 4096 - table % 4096 < length then
      let len := (length + (4096 - length % 4096)) % 2 ^ 32
      let (mapped, s) := vmm.map (vmm.free s mapped) (table - table % 4096) (len / 4096 + 1)
      some (mapped + table % 4096, s)
    else some (hdr, s)

def unmapTable (table : Nat) (s : σ) : σ := vmm.free s (table - table % 4096)

/- The two static variables. -/
structure Acpi where
  isXsdt : Bool
  rsdt : Nat

def acpiInit (rsdt : Nat) (isXsdt : Bool) (acpi : Acpi) (s : σ) : Option (Acpi × σ) := do
  let (mapped, s) ← mmapTable phys vmm rsdt s
  some (if mapped ≠ 0 then ⟨isXsdt, mapped⟩ else acpi, s)

def entrySize (isXsdt : Bool) : Nat := if isXsdt then 8 else 4

def tablesAt (acpi : Acpi) (i : Nat) : Option Nat :=
  load phys bs (acpi.rsdt + (36 + entrySize acpi.isXsdt * i)) (entrySize acpi.isXsdt)

def rootCount (acpi : Acpi) : Option Nat := do
  let length ← load phys bs (acpi.rsdt + 4) 4
  some ((length + 2 ^ 64 - 36) % 2 ^ 64 / entrySize acpi.isXsdt)

def getTableLoop (acpi : Acpi) (signature : Nat → BitVec 8) : Nat → Nat → σ → Option (Nat × σ)
  | 0, _, s => some (0, s)
  | n + 1, i, s => do
    let entry ← tablesAt phys (vmm.blocks s) acpi i
    let (table, s) ← mmapTable phys vmm entry s
    let found ← isTable phys (vmm.blocks s) table signature
    if found then some (table, s)
    else getTableLoop acpi signature n (i + 1) (unmapTable vmm table s)

def acpiGetTable (acpi : Acpi) (signature : Nat → BitVec 8) (s : σ) : Option (Nat × σ) :=
  if acpi.rsdt = 0 then some (0, s)
  else do
    let count ← rootCount phys (vmm.blocks s) acpi
    getTableLoop phys vmm acpi signature count 0 s

end Code

section Stored

variable (phys : Memory)

/-- What a table in memory is, by its address. -/
def tableLength (t : Nat) : Nat := read phys (t + 4) 4

def tableSum (t : Nat) : Nat → BitVec 8
  | 0 => 0
  | n + 1 => tableSum t n + phys (t + n)

def ValidTable (t : Nat) : Prop := tableSum phys t (tableLength phys t) = 0

def Signed (signature : Nat → BitVec 8) (t : Nat) : Prop := ∀ i < 4, phys (t + i) = signature i

/-- The table ends in the two pages that _mmap_table maps at first. -/
def InTwoPages (t : Nat) : Prop := t % 4096 + tableLength phys t ≤ 8192

instance (t : Nat) : Decidable (ValidTable phys t) := by unfold ValidTable; infer_instance

instance (signature : Nat → BitVec 8) (t : Nat) : Decidable (Signed phys signature t) := by
  unfold Signed; infer_instance

instance (t : Nat) : Decidable (InTwoPages phys t) := by unfold InTwoPages; infer_instance

/-- The addresses stored in a root table. -/
def rootEntries (isXsdt : Bool) (root : Nat) : List Nat :=
  (List.range' 0 ((tableLength phys root - 36) / entrySize isXsdt)).map fun i =>
    read phys (root + (36 + entrySize isXsdt * i)) (entrySize isXsdt)

end Stored

section Mapped

variable {phys : Memory} {bs : List Block} {hdr t n k i : Nat} {signature : Nat → BitVec 8}

theorem sumBytes_shown (seen : Shows bs hdr t n) (apart : bs.Pairwise Block.Apart) (le : k ≤ n) :
    sumBytes phys bs hdr k = some (tableSum phys t k) := by
  induction k with
  | zero => rfl
  | succ k ih =>
    have next : byte phys bs (hdr + k) = some (phys (t + k)) := seen.byte apart le
    rw [sumBytes, ih (Nat.le_of_succ_le le), next]
    rfl

theorem sumBytes_none (out : byte phys bs (hdr + i) = none) (lt : i < k) :
    sumBytes phys bs hdr k = none := by
  induction k with
  | zero => omega
  | succ k ih =>
    rw [sumBytes]
    by_cases last : i = k
    · rw [← last, out]
      cases sumBytes phys bs hdr i <;> rfl
    · rw [ih (by omega)]
      rfl

theorem sameBytes_shown (seen : Shows bs hdr t n) (apart : bs.Pairwise Block.Apart)
    (le : i + k ≤ n) : sameBytes phys bs hdr signature k i =
      some (decide (∀ j < k, phys (t + (i + j)) = signature (i + j))) := by
  induction k generalizing i with
  | zero => simp [sameBytes]
  | succ k ih =>
    have next : byte phys bs (hdr + i) = some (phys (t + i)) := seen.byte apart (by omega)
    rw [sameBytes, next]
    simp only [Option.bind_eq_bind, Option.bind_some]
    by_cases same : phys (t + i) = signature i
    · rw [if_neg (not_not_intro same), ih (by omega), Option.some.injEq, decide_eq_decide]
      constructor
      · intro rest j lt
        cases j with
        | zero => exact same
        | succ j => simpa only [Nat.add_assoc, Nat.add_comm 1 j] using rest j (by omega)
      · intro all j lt
        simpa only [Nat.add_assoc, Nat.add_comm 1 j] using all (j + 1) (by omega)
    · rw [if_pos same, Option.some.injEq, eq_comm, decide_eq_false_iff_not]
      exact fun all => same (all 0 (Nat.succ_pos k))

theorem isTable_shown (seen : Shows bs hdr t n) (apart : bs.Pairwise Block.Apart) (le : 4 ≤ n) :
    isTable phys bs hdr signature = some (decide (Signed phys signature t)) := by
  rw [isTable, sameBytes_shown seen apart (by omega), Option.some.injEq, decide_eq_decide]
  simp only [Nat.zero_add, Signed]

theorem validateChecksum_shown (seen : Shows bs hdr t n) (apart : bs.Pairwise Block.Apart)
    (header : 8 ≤ n) (whole : tableLength phys t ≤ n) :
    validateChecksum phys bs hdr = some (decide (ValidTable phys t)) := by
  have length : load phys bs (hdr + 4) 4 = some (tableLength phys t) := seen.load apart header
  rw [validateChecksum, length]
  simp only [Option.bind_eq_bind, Option.bind_some, sumBytes_shown seen apart whole, ValidTable]

end Mapped

section Calls

variable {σ : Type} {vmm : Mapper σ} {phys : Memory} {t : Nat} {s s' : σ}
  {signature : Nat → BitVec 8}

/-- The block of a table, from the start of its first page to behind its end. -/
structure TableBlock (phys : Memory) (t : Nat) (b : Block) : Prop where
  base : b.base = t - t % 4096
  header : t % 4096 + 36 ≤ 4096 * b.pages
  whole : t % 4096 + tableLength phys t ≤ 4096 * b.pages

theorem TableBlock.shows {b : Block} {bs : List Block} (block : TableBlock phys t b)
    (inside : b ∈ bs) : Shows bs (b.addr + t % 4096) t (max 36 (tableLength phys t)) := by
  obtain ⟨base, header, whole⟩ := block
  have low := Nat.mod_le t 4096
  exact ⟨b, inside, by omega, by omega, by omega⟩

theorem map_two (meets : vmm.Meets) (t : Nat) (s : σ) :
    (vmm.blocks (vmm.map s (t - t % 4096) 2).2).Perm
      (⟨(vmm.map s (t - t % 4096) 2).1, t - t % 4096, 2⟩ :: vmm.blocks s) :=
  meets.mapped s _ 2 (by omega) (by omega)

theorem two_pages_shown (meets : vmm.Meets) (t : Nat) (s : σ) :
    Shows (vmm.blocks (vmm.map s (t - t % 4096) 2).2)
      ((vmm.map s (t - t % 4096) 2).1 + t % 4096) t (8192 - t % 4096) := by
  refine ⟨_, (map_two meets t s).mem_iff.mpr List.mem_cons_self, ?_, ?_, ?_⟩ <;> dsimp only
  · exact Nat.le_add_right _ _
  · omega
  · have := Nat.mod_le t 4096
    omega

theorem two_pages_length (meets : vmm.Meets) (t : Nat) (s : σ) :
    load phys (vmm.blocks (vmm.map s (t - t % 4096) 2).2)
      ((vmm.map s (t - t % 4096) 2).1 + t % 4096 + 4) 4 = some (tableLength phys t) :=
  (two_pages_shown meets t s).load (meets.apart _) (by omega)

theorem two_pages_checked (meets : vmm.Meets) (fits : InTwoPages phys t) (s : σ) :
    validateChecksum phys (vmm.blocks (vmm.map s (t - t % 4096) 2).2)
      ((vmm.map s (t - t % 4096) 2).1 + t % 4096) = some (decide (ValidTable phys t)) := by
  unfold InTwoPages at fits
  exact validateChecksum_shown (two_pages_shown meets t s) (meets.apart _) (by omega) (by omega)

theorem mmapTable_invalid (meets : vmm.Meets) (fits : InTwoPages phys t)
    (bad : ¬ValidTable phys t) (s : σ) : ∃ s', mmapTable phys vmm t s = some (0, s') ∧
      (vmm.blocks s').Perm (vmm.blocks s) := by
  have checked := two_pages_checked meets fits s
  refine ⟨_, ?_, meets.undo (map_two meets t s)⟩
  simp only [mmapTable, checked, Option.bind_eq_bind, Option.bind_some, bad, decide_false,
    Bool.not_false, if_true]

theorem mmapTable_valid (meets : vmm.Meets) (fits : InTwoPages phys t)
    (good : ValidTable phys t) (s : σ) : ∃ b s', mmapTable phys vmm t s =
        some (b.addr + t % 4096, s') ∧ TableBlock phys t b ∧
      (vmm.blocks s').Perm (b :: vmm.blocks s) := by
  have new := map_two meets t s
  have checked := two_pages_checked meets fits s
  have length : load phys _ _ 4 = _ := two_pages_length meets t s
  unfold InTwoPages at fits
  by_cases long : 4096 - t % 4096 < tableLength phys t
  · -- mapped once more, with the pages that the length asks for
    obtain ⟨pages, count⟩ : ∃ pages, pages = (tableLength phys t +
        (4096 - tableLength phys t % 4096)) % 2 ^ 32 / 4096 + 1 := ⟨_, rfl⟩
    obtain ⟨s₁, undone⟩ : ∃ s₁, s₁ = vmm.free (vmm.map s (t - t % 4096) 2).2
        (vmm.map s (t - t % 4096) 2).1 := ⟨_, rfl⟩
    have back : (vmm.blocks s₁).Perm (vmm.blocks s) := by
      rw [undone]
      exact meets.undo new
    have again := meets.mapped s₁ (t - t % 4096) pages (by omega) (by omega)
    refine ⟨⟨_, _, _⟩, _, ?_, ⟨rfl, ?_, ?_⟩, again.trans (back.cons _)⟩
    · simp only [mmapTable, checked, Option.bind_eq_bind, Option.bind_some, good, decide_true,
        Bool.not_true, Bool.false_eq_true, if_false, length, long, if_true, ← count, ← undone]
    · show t % 4096 + 36 ≤ 4096 * pages
      omega
    · show t % 4096 + tableLength phys t ≤ 4096 * pages
      omega
  · have block : TableBlock phys t ⟨(vmm.map s (t - t % 4096) 2).1, t - t % 4096, 2⟩ :=
      ⟨rfl, by show _ ≤ 4096 * 2; omega, fits⟩
    refine ⟨_, _, ?_, block, new⟩
    simp only [mmapTable, checked, Option.bind_eq_bind, Option.bind_some, good, decide_true,
      Bool.not_true, Bool.false_eq_true, if_false, length, long]

theorem unmapTable_back (meets : vmm.Meets) {b : Block}
    (new : (vmm.blocks s').Perm (b :: vmm.blocks s)) (t : Nat) :
    (vmm.blocks (unmapTable vmm (b.addr + t % 4096) s')).Perm (vmm.blocks s) := by
  have start := (meets.shape s' b (new.mem_iff.mpr List.mem_cons_self)).2.1
  rw [unmapTable, show b.addr + t % 4096 - (b.addr + t % 4096) % 4096 = b.addr by omega]
  exact meets.undo new

theorem isTable_null (meets : vmm.Meets) (s : σ) :
    isTable phys (vmm.blocks s) 0 signature = none := by
  rw [isTable, sameBytes, meets.null]
  rfl

end Calls

end Gapxos
