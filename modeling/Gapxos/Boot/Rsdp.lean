import Gapxos.Boot.Multiboot
import Gapxos.Acpi.GetTable

/-! From the RSDP tags to the list of tables: kernel_main picks an RSDP and takes the address of
the RSDT from it, system_main passes that address and the version on to acpi_init. -/
namespace Gapxos
open Bytes Windows

def rsdpSignature (mem : Memory) (rsdp : Nat) : List (BitVec 8) :=
  (List.range 8).map fun i => mem (rsdp + i)

def acpiChecksum (mem : Memory) (rsdp : Nat) : Nat :=
  ((List.range 20).map fun i => (mem (rsdp + i)).toNat).sum

/-- What kernel_main passes on in system_info, the address of the RSDT and the version. The
other ends of kernel_main halt. -/
def kernelMainAcpi (mem : Memory) (mbStructure : Nat) : Option (Nat × Nat) := do
  let (_, info) ← interpretMultiboot mem mbStructure
  if info.count = 0 then none
  else if info.version = 0 then none
  else if rsdpSignature mem info.rsdp ≠ [0x52, 0x53, 0x44, 0x20, 0x50, 0x54, 0x52, 0x20] then none
  else if acpiChecksum mem info.rsdp % 256 ≠ 0 then none
  else some (read mem (info.rsdp + 16) 4, info.version)

/-- The call of acpi_init in system_main. -/
def systemMainAcpi {σ : Type} (mem : Memory) (vmm : Mapper σ) (acpi acpiVersion : Nat) (s : σ) :
    Option (Acpi × σ) :=
  acpiInit mem vmm acpi (acpiVersion = 2) ⟨false, 0⟩ s

section Enumerate

variable (phys : Memory) (bs : List Block)

def enumerateFrom (acpi : Acpi) : Nat → Nat → Option (List Nat)
  | 0, _ => some []
  | n + 1, i => do
    let entry ← tablesAt phys bs acpi i
    let rest ← enumerateFrom acpi n (i + 1)
    some (entry :: rest)

/-- The addresses that the loop of acpi_get_table goes through when no table stops it. -/
def enumerates (acpi : Acpi) : Option (List Nat) :=
  if acpi.rsdt = 0 then some []
  else do
    let count ← rootCount phys bs acpi
    enumerateFrom phys bs acpi count 0

variable {phys bs} {acpi : Acpi} {root : Nat}

theorem enumerateFrom_root (mapped : RootMapped phys bs acpi root)
    (apart : bs.Pairwise Block.Apart) {n i : Nat}
    (inside : i + n ≤ (tableLength phys root - 36) / entrySize acpi.isXsdt) :
    enumerateFrom phys bs acpi n i = some (entriesFrom phys root (entrySize acpi.isXsdt) i n) := by
  induction n generalizing i with
  | zero => rfl
  | succ n ih =>
    rw [enumerateFrom, mapped.entry apart (by omega), ih (by omega)]
    rfl

theorem enumerates_root (mapped : RootMapped phys bs acpi root)
    (apart : bs.Pairwise Block.Apart) (header : 36 ≤ tableLength phys root) :
    enumerates phys bs acpi = some (rootEntries phys acpi.isXsdt root) := by
  rw [enumerates, if_neg mapped.1, mapped.count apart header]
  exact enumerateFrom_root mapped apart (Nat.le_of_eq (Nat.zero_add _))

end Enumerate

section Version

variable {mem : Memory} {info info' : MbInfo} {tags : List Nat} {n a type size : Nat}

theorem interpretTag_version (low : info.version ≤ 2)
    (tag : interpretTag mem type size a info = some info') :
    info'.version ≤ 2 ∧ (info'.version = 2 ↔ info.version = 2 ∨ type = 15) := by
  unfold interpretTag at tag
  repeat' split at tag
  all_goals cases tag
  all_goals try dsimp only
  all_goals omega

theorem interpretLoop_version (low : info.version ≤ 2)
    (walk : interpretLoop mem n a info = some (tags, info')) :
    info'.version = 2 ↔ info.version = 2 ∨ ∃ t ∈ tags, tagType mem t = 15 := by
  induction n generalizing a info tags with
  | zero => cases walk
  | succ n ih =>
    rw [interpretLoop] at walk
    split at walk
    · simp only [Option.bind_eq_bind, Option.bind_eq_some_iff] at walk
      obtain ⟨info₁, tag, ⟨rest, info₂⟩, later, out⟩ := walk
      simp only [Option.some.injEq, Prod.mk.injEq] at out
      obtain ⟨rfl, rfl⟩ := out
      obtain ⟨low₁, first⟩ := interpretTag_version low tag
      rw [ih low₁ later, first, List.exists_mem_cons_iff, or_assoc]
    · simp only [Option.some.injEq, Prod.mk.injEq] at walk
      obtain ⟨rfl, rfl⟩ := walk
      simp

theorem kernelMainAcpi_version {mb root version : Nat}
    (walk : interpretMultiboot mem mb = some (tags, info))
    (boot : kernelMainAcpi mem mb = some (root, version)) :
    version = 2 ↔ ∃ t ∈ tags, tagType mem t = 15 := by
  have last := interpretLoop_version (Nat.zero_le 2) walk
  simp only [kernelMainAcpi, walk, Option.bind_eq_bind, Option.bind_some] at boot
  repeat' split at boot
  all_goals cases boot
  rw [last]
  simp

end Version

def RsdtAt (mem : Memory) (root n : Nat) : Prop :=
  ValidTable mem root ∧ tableLength mem root = 36 + 4 * n

theorem rootEntries_length (phys : Memory) (isXsdt : Bool) (root : Nat) :
    (rootEntries phys isXsdt root).length = (tableLength phys root - 36) / entrySize isXsdt := by
  rw [rootEntries, List.length_map, List.length_range']

theorem RsdtAt.entries {mem : Memory} {root n : Nat} (rsdt : RsdtAt mem root n) :
    rootEntries mem true root = rootEntries mem false root ↔ n = 0 := by
  constructor
  · intro same
    have count := congrArg List.length same
    rw [rootEntries_length, rootEntries_length, rsdt.2] at count
    simp only [entrySize, if_true, Bool.false_eq_true, if_false] at count
    omega
  · rintro rfl
    apply List.ext_getElem
    · rw [rootEntries_length, rootEntries_length, rsdt.2]
      simp only [Nat.mul_zero, Nat.add_zero, Nat.sub_self, Nat.zero_div]
    · intro i less
      rw [rootEntries_length, rsdt.2] at less
      simp at less

theorem rsdt_entries_enumerated (mem : Memory) (mb : Nat) (tags : List Nat) (info : MbInfo)
    (root version n : Nat) (walk : interpretMultiboot mem mb = some (tags, info))
    (boot : kernelMainAcpi mem mb = some (root, version)) (rsdt : RsdtAt mem root n) :
    (∀ (σ : Type) (vmm : Mapper σ) (s : σ), vmm.Meets → ∃ acpi s',
      systemMainAcpi mem vmm root version s = some (acpi, s') ∧
      enumerates mem (vmm.blocks s') acpi = some (rootEntries mem false root)) ↔
    InTwoPages mem root ∧ ((∀ t ∈ tags, tagType mem t ≠ 15) ∨ n = 0) := by
  have header : 36 ≤ tableLength mem root := by
    have := rsdt.2
    omega
  have two := kernelMainAcpi_version walk boot
  -- acpi_init and the enumeration behind it, for a root table that ends in two pages
  have init : ∀ {σ : Type} {vmm : Mapper σ}, vmm.Meets → InTwoPages mem root → ∀ s, ∃ acpi s',
      systemMainAcpi mem vmm root version s = some (acpi, s') ∧
      enumerates mem (vmm.blocks s') acpi = some (rootEntries mem (version = 2) root) := by
    intro σ vmm meets fits s
    obtain ⟨addr, s', made, mapped⟩ :=
      acpiInit_mapped meets fits rsdt.1 (version = 2) ⟨false, 0⟩ s
    exact ⟨_, s', made, enumerates_root mapped (meets.apart s') header⟩
  constructor
  · intro all
    have fits : InTwoPages mem root := by
      by_contra long
      obtain ⟨acpi, s', made, _⟩ := all GapState gapMapper GapState.empty gapMapper_meets
      rw [systemMainAcpi, acpiInit, mmapTable_long long] at made
      cases made
    refine ⟨fits, or_iff_not_imp_left.mpr fun some15 => ?_⟩
    have version2 : version = 2 := by
      push Not at some15
      exact two.mpr some15
    obtain ⟨acpi, s', made, entries⟩ := all GapState gapMapper GapState.empty gapMapper_meets
    obtain ⟨acpi₁, s₁, made₁, entries₁⟩ := init gapMapper_meets fits GapState.empty
    rw [made] at made₁
    cases made₁
    rw [entries₁, decide_eq_true version2, Option.some.injEq] at entries
    exact rsdt.entries.mp entries
  · rintro ⟨fits, cond⟩ σ vmm s meets
    obtain ⟨acpi, s', made, entries⟩ := init meets fits s
    refine ⟨acpi, s', made, ?_⟩
    rw [entries]
    by_cases version2 : version = 2
    · obtain ⟨t, inside, type⟩ := two.mp version2
      have none := cond.resolve_left fun no15 => no15 t inside type
      rw [decide_eq_true version2, rsdt.entries.mpr none]
    · rw [decide_eq_false version2]

/-- An RSDT of one entry at 0x1000, and at 0x9000 the tags: a memory map and an RSDP that points
to the RSDT. -/
def bootMemory (rsdpTag : List Nat) : Memory := fun x => BitVec.ofNat 8 (
  if x < 0x9000 then ([0x52, 0x53, 0x44, 0x54, 40, 0, 0, 0, 1, 122] ++ List.replicate 26 0 ++
    [0, 0x20, 0, 0]).getD (x - 0x1000) 0
  else ([0, 0, 0, 0, 0, 0, 0, 0] ++ [6, 0, 0, 0, 40, 0, 0, 0, 24, 0, 0, 0, 0, 0, 0, 0] ++
    [0, 0, 0, 0, 0, 0, 0, 0, 0, 0, 0, 1, 0, 0, 0, 0, 1, 0, 0, 0, 0, 0, 0, 0] ++
    rsdpTag).getD (x - 0x9000) 0)

def tag14 : List Nat := [14, 0, 0, 0, 28, 0, 0, 0] ++
  [0x52, 0x53, 0x44, 0x20, 0x50, 0x54, 0x52, 0x20, 209, 0, 0, 0, 0, 0, 0, 0, 0, 0x10, 0, 0]

def tag15 : List Nat := [15, 0, 0, 0, 44, 0, 0, 0] ++
  [0x52, 0x53, 0x44, 0x20, 0x50, 0x54, 0x52, 0x20, 207, 0, 0, 0, 0, 0, 0, 2, 0, 0x10, 0, 0] ++
  [36, 0, 0, 0, 0, 0x50, 0, 0, 0, 0, 0, 0, 140, 0, 0, 0]

theorem rsdt_entries_enumerated_old :
    kernelMainAcpi (bootMemory tag14) 0x9000 = some (0x1000, 1) ∧
      RsdtAt (bootMemory tag14) 0x1000 1 ∧
      ∀ (σ : Type) (vmm : Mapper σ) (s : σ), vmm.Meets → ∃ acpi s',
        systemMainAcpi (bootMemory tag14) vmm 0x1000 1 s = some (acpi, s') ∧
        enumerates (bootMemory tag14) (vmm.blocks s') acpi =
          some (rootEntries (bootMemory tag14) false 0x1000) := by
  have walk : interpretMultiboot (bootMemory tag14) 0x9000 =
      some ([0x9008, 0x9030], ⟨1, 0x9018, 1, 0x9038, 0, 0, 0⟩) := rfl
  have boot : kernelMainAcpi (bootMemory tag14) 0x9000 = some (0x1000, 1) := rfl
  have rsdt : RsdtAt (bootMemory tag14) 0x1000 1 := ⟨by decide, by decide⟩
  exact ⟨boot, rsdt, (rsdt_entries_enumerated _ _ _ _ _ _ _ walk boot rsdt).mpr
    ⟨by decide, .inl (by decide)⟩⟩

/-- With the RSDP of ACPI 2.0 the one entry of the RSDT is lost. -/
theorem rsdt_entries_halved :
    kernelMainAcpi (bootMemory tag15) 0x9000 = some (0x1000, 2) ∧
      RsdtAt (bootMemory tag15) 0x1000 1 ∧
      rootEntries (bootMemory tag15) false 0x1000 = [0x2000] ∧
      ∃ acpi s, systemMainAcpi (bootMemory tag15) gapMapper 0x1000 2 GapState.empty =
          some (acpi, s) ∧
        enumerates (bootMemory tag15) (gapMapper.blocks s) acpi = some [] := by
  have rsdt : RsdtAt (bootMemory tag15) 0x1000 1 := ⟨by decide, by decide⟩
  obtain ⟨addr, s, made, mapped⟩ := acpiInit_mapped gapMapper_meets
    (show InTwoPages (bootMemory tag15) 0x1000 by decide) rsdt.1 true ⟨false, 0⟩ GapState.empty
  refine ⟨rfl, rsdt, by decide, _, s, made, ?_⟩
  rw [enumerates_root mapped (gapMapper_meets.apart s) (by decide)]
  exact congrArg some (by decide : rootEntries (bootMemory tag15) true 0x1000 = [])

end Gapxos
