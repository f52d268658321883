import Gapxos.Acpi.Table

/-! acpi_get_table over the whole list of a root table. It looks for the first table that is
valid and has the signature; on the way there one bad table is enough to break it. -/
namespace Gapxos
open Bytes Windows

/-- _rsdt points to the root table, mapped to its end. -/
def RootMapped (phys : Memory) (bs : List Block) (acpi : Acpi) (root : Nat) : Prop :=
  acpi.rsdt ≠ 0 ∧ Shows bs acpi.rsdt root (max 36 (tableLength phys root))

/-- The first table asked for, if there is one. -/
def firstTable (phys : Memory) (signature : Nat → BitVec 8) (ts : List Nat) : Option Nat :=
  ts.find? fun t => ValidTable phys t ∧ Signed phys signature t

/-- The call returns the first table asked for in one new block, or NULL and no new block. -/
def Finds {σ : Type} (phys : Memory) (vmm : Mapper σ) (signature : Nat → BitVec 8) (ts : List Nat)
    (s : σ) (out : Option (Nat × σ)) : Prop :=
  ∃ table s', out = some (table, s') ∧ match firstTable phys signature ts with
    | none => table = 0 ∧ (vmm.blocks s').Perm (vmm.blocks s)
    | some t => ∃ b, table = b.addr + t % 4096 ∧ TableBlock phys t b ∧
        (vmm.blocks s').Perm (b :: vmm.blocks s)

/-- Up to the table asked for every table is valid and ends in two pages. -/
def CleanTables (phys : Memory) (signature : Nat → BitVec 8) : List Nat → Prop
  | [] => True
  | t :: ts => InTwoPages phys t ∧ ValidTable phys t ∧
      (Signed phys signature t ∨ CleanTables phys signature ts)

section Root

variable {phys : Memory} {bs : List Block} {acpi : Acpi} {root i : Nat}

theorem RootMapped.count (mapped : RootMapped phys bs acpi root)
    (apart : bs.Pairwise Block.Apart) (header : 36 ≤ tableLength phys root) :
    rootCount phys bs acpi = some ((tableLength phys root - 36) / entrySize acpi.isXsdt) := by
  have length : load phys bs (acpi.rsdt + 4) 4 = some (tableLength phys root) :=
    mapped.2.load apart (by omega)
  have small : tableLength phys root < 256 ^ 4 := read_lt phys (root + 4) 4
  rw [rootCount, length]
  simp only [Option.bind_eq_bind, Option.bind_some]
  rw [show (tableLength phys root + 2 ^ 64 - 36) % 2 ^ 64 = tableLength phys root - 36 by omega]

theorem RootMapped.entry (mapped : RootMapped phys bs acpi root)
    (apart : bs.Pairwise Block.Apart)
    (inside : i < (tableLength phys root - 36) / entrySize acpi.isXsdt) :
    tablesAt phys bs acpi i = some
      (read phys (root + (36 + entrySize acpi.isXsdt * i)) (entrySize acpi.isXsdt)) := by
  have bound := Nat.mul_le_of_le_div _ _ _ inside
  rw [Nat.succ_mul, Nat.mul_comm i] at bound
  have size : 0 < entrySize acpi.isXsdt := by
    unfold entrySize
    split <;> omega
  exact mapped.2.load apart (by omega)

theorem acpiInit_mapped {σ : Type} {vmm : Mapper σ} (meets : vmm.Meets)
    (fits : InTwoPages phys root) (good : ValidTable phys root) (isXsdt : Bool) (acpi : Acpi)
    (s : σ) : ∃ rsdt s', acpiInit phys vmm root isXsdt acpi s = some (⟨isXsdt, rsdt⟩, s') ∧
      RootMapped phys (vmm.blocks s') ⟨isXsdt, rsdt⟩ root := by
  obtain ⟨b, s', mmap, block, new⟩ := mmapTable_valid meets fits good s
  have inside : b ∈ vmm.blocks s' := new.mem_iff.mpr List.mem_cons_self
  have start : b.addr + root % 4096 ≠ 0 := by
    have := (meets.shape s' b inside).2.2
    omega
  refine ⟨b.addr + root % 4096, s', ?_, start, block.shows inside⟩
  simp only [acpiInit, mmap, Option.bind_eq_bind, Option.bind_some, if_pos start]

end Root

section Loop

variable {σ : Type} {vmm : Mapper σ} {phys : Memory} {s s' : σ} {signature : Nat → BitVec 8}
  {acpi : Acpi} {root n i : Nat}

def entriesFrom (phys : Memory) (root width i n : Nat) : List Nat :=
  (List.range' i n).map fun i => read phys (root + (36 + width * i)) width

theorem Finds.back {ts : List Nat} {out : Option (Nat × σ)}
    (finds : Finds phys vmm signature ts s' out) (same : (vmm.blocks s').Perm (vmm.blocks s)) :
    Finds phys vmm signature ts s out := by
  obtain ⟨table, s₁, rfl, found⟩ := finds
  refine ⟨table, s₁, rfl, ?_⟩
  split at found
  · exact ⟨found.1, found.2.trans same⟩
  · obtain ⟨b, at_, block, new⟩ := found
    exact ⟨b, at_, block, new.trans (same.cons b)⟩

theorem firstTable_skip {t : Nat} (not : ¬Signed phys signature t) (ts : List Nat) :
    firstTable phys signature (t :: ts) = firstTable phys signature ts :=
  List.find?_cons_of_neg (by simpa using fun _ => not)

theorem getTableLoop_step (signature : Nat → BitVec 8) (n : Nat) (meets : vmm.Meets)
    (mapped : RootMapped phys (vmm.blocks s) acpi root)
    (inside : i < (tableLength phys root - 36) / entrySize acpi.isXsdt) {t : Nat}
    (entry : t = read phys (root + (36 + entrySize acpi.isXsdt * i)) (entrySize acpi.isXsdt))
    (fits : InTwoPages phys t) (good : ValidTable phys t) :
    ∃ b s₁, TableBlock phys t b ∧ (vmm.blocks s₁).Perm (b :: vmm.blocks s) ∧
      getTableLoop phys vmm acpi signature (n + 1) i s = if Signed phys signature t then
        some (b.addr + t % 4096, s₁) else
          getTableLoop phys vmm acpi signature n (i + 1)
            (unmapTable vmm (b.addr + t % 4096) s₁) := by
  obtain ⟨b, s₁, mmap, block, new⟩ := mmapTable_valid meets fits good s
  have seen := block.shows (new.mem_iff.mpr List.mem_cons_self)
  have is : isTable phys (vmm.blocks s₁) (b.addr + t % 4096) signature =
      some (decide (Signed phys signature t)) := isTable_shown seen (meets.apart s₁) (by omega)
  refine ⟨b, s₁, block, new, ?_⟩
  rw [getTableLoop, mapped.entry (meets.apart s) inside, ← entry]
  simp only [Option.bind_eq_bind, Option.bind_some, mmap, is, decide_eq_true_eq]

theorem entriesFrom_succ (phys : Memory) (root size i n : Nat) :
    ∃ t, t = read phys (root + (36 + size * i)) size ∧
      entriesFrom phys root size i (n + 1) = t :: entriesFrom phys root size (i + 1) n :=
  ⟨_, rfl, rfl⟩

theorem getTableLoop_finds (meets : vmm.Meets)
    (mapped : RootMapped phys (vmm.blocks s) acpi root)
    (inside : i + n ≤ (tableLength phys root - 36) / entrySize acpi.isXsdt)
    (clean : CleanTables phys signature (entriesFrom phys root (entrySize acpi.isXsdt) i n)) :
    Finds phys vmm signature (entriesFrom phys root (entrySize acpi.isXsdt) i n) s
      (getTableLoop phys vmm acpi signature n i s) := by
  induction n generalizing i s with
  | zero => exact ⟨0, s, rfl, rfl, List.Perm.refl _⟩
  | succ n ih =>
    obtain ⟨t, entry, split⟩ := entriesFrom_succ phys root (entrySize acpi.isXsdt) i n
    rw [split] at clean ⊢
    obtain ⟨fits, good, rest⟩ := clean
    obtain ⟨b, s₁, block, new, step⟩ := getTableLoop_step signature n meets mapped
      (by omega) entry fits good
    rw [step]
    by_cases is : Signed phys signature t
    · rw [if_pos is]
      refine ⟨_, s₁, rfl, ?_⟩
      rw [firstTable, List.find?_cons_of_pos (by simpa using ⟨good, is⟩)]
      exact ⟨b, rfl, block, new⟩
    · have back := unmapTable_back meets new t
      have later := (ih ⟨mapped.1, mapped.2.perm back⟩ (by omega) (rest.resolve_left is)).back back
      unfold Finds at later ⊢
      rw [if_neg is, firstTable_skip is]
      exact later

end Loop

section Broken

variable {phys : Memory} {signature : Nat → BitVec 8} {acpi : Acpi} {root n i t : Nat}

theorem mmapTable_long (long : ¬InTwoPages phys t) (s : GapState) :
    mmapTable phys gapMapper t s = none := by
  have length : load phys _ _ 4 = _ := two_pages_length gapMapper_meets t s
  have guard : byte phys (gapMapper.blocks (gapMapper.map s (t - t % 4096) 2).2)
      ((gapMapper.map s (t - t % 4096) 2).1 + t % 4096 + (8192 - t % 4096)) = none := by
    apply GapState.map_guard phys s (t - t % 4096) (Nat.succ_pos 1)
    show (s.map (t - t % 4096) 2).1 + 4096 * 2 ≤ (s.map (t - t % 4096) 2).1 + _ + _
    omega
  unfold InTwoPages at long
  have sum := sumBytes_none guard (show 8192 - t % 4096 < tableLength phys t by omega)
  simp only [mmapTable, validateChecksum, length, sum, Option.bind_eq_bind, Option.bind_some,
    Option.bind_none]

theorem getTableLoop_breaks (s : GapState)
    (mapped : RootMapped phys (gapMapper.blocks s) acpi root)
    (inside : i + n ≤ (tableLength phys root - 36) / entrySize acpi.isXsdt)
    (bad : ¬CleanTables phys signature (entriesFrom phys root (entrySize acpi.isXsdt) i n)) :
    getTableLoop phys gapMapper acpi signature n i s = none := by
  induction n generalizing i s with
  | zero => exact absurd trivial bad
  | succ n ih =>
    obtain ⟨t, entry, split⟩ := entriesFrom_succ phys root (entrySize acpi.isXsdt) i n
    have first : getTableLoop phys gapMapper acpi signature (n + 1) i s = _ := getTableLoop.eq_2 ..
    rw [mapped.entry (gapMapper_meets.apart s) (by omega), ← entry] at first
    rw [split] at bad
    by_cases fits : InTwoPages phys t
    · by_cases good : ValidTable phys t
      · obtain ⟨b, s₁, _, new, step⟩ := getTableLoop_step signature n gapMapper_meets mapped
          (by omega) entry fits good
        have is : ¬Signed phys signature t := fun is => bad ⟨fits, good, .inl is⟩
        have back := unmapTable_back gapMapper_meets new t
        rw [step, if_neg is]
        exact ih _ ⟨mapped.1, mapped.2.perm back⟩ (by omega) fun later =>
          bad ⟨fits, good, .inr later⟩
      · obtain ⟨s₁, mmap, _⟩ := mmapTable_invalid gapMapper_meets fits good s
        rw [first]
        simp only [Option.bind_eq_bind, Option.bind_some, mmap, isTable_null gapMapper_meets,
          Option.bind_none]
    · rw [first]
      simp only [Option.bind_eq_bind, Option.bind_some, mmapTable_long fits, Option.bind_none]

end Broken

theorem rootMapped_gap (phys : Memory) (root : Nat) (isXsdt : Bool) :
    ∃ (s : GapState) (rsdt : Nat), RootMapped phys (gapMapper.blocks s) ⟨isXsdt, rsdt⟩ root := by
  obtain ⟨pages, count⟩ : ∃ pages, pages = tableLength phys root + 2 := ⟨_, rfl⟩
  have new := gapMapper_meets.mapped GapState.empty (root - root % 4096) pages (by omega) (by omega)
  have block : TableBlock phys root
      ⟨(gapMapper.map GapState.empty (root - root % 4096) pages).1, root - root % 4096, pages⟩ :=
    ⟨rfl, by show _ ≤ 4096 * pages; omega, by show _ ≤ 4096 * pages; omega⟩
  have start : (gapMapper.map GapState.empty (root - root % 4096) pages).1 ≠ 0 :=
    (gapMapper_meets.shape _ _ (new.mem_iff.mpr List.mem_cons_self)).2.2
  refine ⟨_, _, ?_, block.shows (new.mem_iff.mpr List.mem_cons_self)⟩
  show (gapMapper.map GapState.empty (root - root % 4096) pages).1 + root % 4096 ≠ 0
  omega

theorem get_table_finds (phys : Memory) (root : Nat) (isXsdt : Bool) (signature : Nat → BitVec 8)
    (header : 36 ≤ tableLength phys root) :
    (∀ (σ : Type) (vmm : Mapper σ) (s : σ) (rsdt : Nat), vmm.Meets →
      RootMapped phys (vmm.blocks s) ⟨isXsdt, rsdt⟩ root →
      Finds phys vmm signature (rootEntries phys isXsdt root) s
        (acpiGetTable phys vmm ⟨isXsdt, rsdt⟩ signature s)) ↔
    CleanTables phys signature (rootEntries phys isXsdt root) := by
  have whole : ∀ {σ : Type} {vmm : Mapper σ} {s : σ} {rsdt : Nat}, vmm.Meets →
      RootMapped phys (vmm.blocks s) ⟨isXsdt, rsdt⟩ root →
      acpiGetTable phys vmm ⟨isXsdt, rsdt⟩ signature s = getTableLoop phys vmm ⟨isXsdt, rsdt⟩
        signature ((tableLength phys root - 36) / entrySize isXsdt) 0 s := by
    intro σ vmm s rsdt meets mapped
    rw [acpiGetTable, if_neg mapped.1, mapped.count (meets.apart s) header]
    rfl
  constructor
  · intro finds
    by_contra bad
    obtain ⟨s, rsdt, mapped⟩ := rootMapped_gap phys root isXsdt
    obtain ⟨_, _, out, _⟩ := finds GapState gapMapper s rsdt gapMapper_meets mapped
    rw [whole gapMapper_meets mapped, getTableLoop_breaks s mapped
      (Nat.le_of_eq (Nat.zero_add _)) bad] at out
    cases out
  · intro clean σ vmm s rsdt meets mapped
    rw [whole meets mapped]
    exact getTableLoop_finds meets mapped (Nat.le_of_eq (Nat.zero_add _)) clean

/-- The bytes of an RSDT of two entries at 0x1000 and of two tables, at 0x2000 and 0x3000. The
second of them is a valid MADT. -/
def twoTables (first : BitVec 8) : Memory := fun x =>
  if x < 0x2000 then ([0x52, 0x53, 0x44, 0x54, 44, 0, 0, 0, 1, 0x46] : List (BitVec 8)).getD
      (x - 0x1000) (([0, 0x20, 0, 0, 0, 0x30, 0, 0] : List (BitVec 8)).getD (x - 0x1024) 0)
  else if x < 0x3000 then
    ([0x46, 0x41, 0x43, 0x50, 36, 0, 0, 0, 1, first] : List (BitVec 8)).getD (x - 0x2000) 0
  else ([0x41, 0x50, 0x49, 0x43, 36, 0, 0, 0, 1, 0xBE] : List (BitVec 8)).getD (x - 0x3000) 0

def madtSignature (i : Nat) : BitVec 8 := [0x41, 0x50, 0x49, 0x43].getD i 0

theorem get_table_finds_second :
    36 ≤ tableLength (twoTables 0xC1) 0x1000 ∧
      firstTable (twoTables 0xC1) madtSignature [0x2000, 0x3000] = some 0x3000 ∧
      ∀ (σ : Type) (vmm : Mapper σ) (s : σ) (rsdt : Nat), vmm.Meets →
        RootMapped (twoTables 0xC1) (vmm.blocks s) ⟨false, rsdt⟩ 0x1000 →
        Finds (twoTables 0xC1) vmm madtSignature [0x2000, 0x3000] s
          (acpiGetTable (twoTables 0xC1) vmm ⟨false, rsdt⟩ madtSignature s) := by
  have clean : CleanTables (twoTables 0xC1) madtSignature [0x2000, 0x3000] :=
    ⟨by decide, by decide, .inr ⟨by decide, by decide, .inl (by decide)⟩⟩
  exact ⟨by decide, by decide, (get_table_finds (twoTables 0xC1) 0x1000 false madtSignature
    (by decide)).mpr clean⟩

/-- A table with a wrong sum stands before the one asked for: NULL is dereferenced. -/
theorem get_table_null_deref : ∃ acpi s,
    acpiInit (twoTables 0) gapMapper 0x1000 false ⟨false, 0⟩ GapState.empty = some (acpi, s) ∧
      RootMapped (twoTables 0) (gapMapper.blocks s) acpi 0x1000 ∧
      rootEntries (twoTables 0) false 0x1000 = [0x2000, 0x3000] ∧
      firstTable (twoTables 0) madtSignature [0x2000, 0x3000] = some 0x3000 ∧
      acpiGetTable (twoTables 0) gapMapper acpi madtSignature s = none := by
  obtain ⟨rsdt, s, init, mapped⟩ := acpiInit_mapped gapMapper_meets
    (show InTwoPages (twoTables 0) 0x1000 by decide) (by decide) false ⟨false, 0⟩ GapState.empty
  have entries : rootEntries (twoTables 0) false 0x1000 = [0x2000, 0x3000] := by decide
  refine ⟨⟨false, rsdt⟩, s, init, mapped, entries, by decide, ?_⟩
  rw [acpiGetTable, if_neg mapped.1, mapped.count (gapMapper_meets.apart s) (by decide)]
  apply getTableLoop_breaks s mapped (Nat.le_of_eq (Nat.zero_add _))
  show ¬CleanTables (twoTables 0) madtSignature (rootEntries (twoTables 0) false 0x1000)
  rw [entries]
  exact fun clean => absurd clean.2.1 (by decide)

end Gapxos
