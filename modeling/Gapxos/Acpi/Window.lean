import Gapxos.Acpi.GetTable

/-! The accesses of _mmap_table against the windows it maps. The sum is taken over the whole
table while two pages are mapped, and the length of the table says only afterwards how many
pages it needs. -/
namespace Gapxos
open Bytes Windows

/-- The window in which the checksum is taken. -/
def firstWindow (mapped t : Nat) : Block := ⟨mapped, t - t % 4096, 2⟩

section Window

variable {phys : Memory} {t mapped : Nat}

theorem firstWindow_shows (mapped t : Nat) :
    Shows [firstWindow mapped t] (mapped + t % 4096) t (8192 - t % 4096) := by
  refine ⟨firstWindow mapped t, List.mem_singleton_self _, ?_, ?_, ?_⟩ <;> dsimp only [firstWindow]
  · exact Nat.le_add_right _ _
  · omega
  · have := Nat.mod_le t 4096
    omega

theorem validateChecksum_window (phys : Memory) (mapped t : Nat) :
    validateChecksum phys [firstWindow mapped t] (mapped + t % 4096) ≠ none ↔
      InTwoPages phys t := by
  have seen := firstWindow_shows mapped t
  have apart : [firstWindow mapped t].Pairwise Block.Apart := List.pairwise_singleton _ _
  constructor
  · intro back
    by_contra long
    unfold InTwoPages at long
    apply back
    have length : load phys [firstWindow mapped t] (mapped + t % 4096 + 4) 4 =
        some (tableLength phys t) := seen.load apart (by omega)
    have out : byte phys [firstWindow mapped t] (mapped + t % 4096 + (8192 - t % 4096)) = none := by
      apply byte_none
      rintro b inside ⟨_, high⟩
      rw [List.mem_singleton.mp inside] at high
      simp only [firstWindow] at high
      omega
    have sum := sumBytes_none out (show 8192 - t % 4096 < tableLength phys t by omega)
    simp only [validateChecksum, length, sum, Option.bind_eq_bind, Option.bind_some,
      Option.bind_none]
  · intro fits
    unfold InTwoPages at fits
    rw [validateChecksum_shown seen apart (by omega) (by omega)]
    exact Option.some_ne_none _

end Window

/- The first part is about the bytes that are read for the checksum, the second about those
that the caller can reach with the pointer it is given. -/
theorem table_window_iff (phys : Memory) (t : Nat) {σ : Type} (vmm : Mapper σ) (meets : vmm.Meets)
    (s : σ) :
    (validateChecksum phys [firstWindow (vmm.map s (t - t % 4096) 2).1 t]
        ((vmm.map s (t - t % 4096) 2).1 + t % 4096) ≠ none ∧
      ∀ hdr s', mmapTable phys vmm t s = some (hdr, s') → hdr ≠ 0 →
        ∃ b ∈ vmm.blocks s', hdr = b.addr + t % 4096 ∧
          ∀ i < tableLength phys t, b.Has (hdr + i)) ↔ InTwoPages phys t := by
  rw [validateChecksum_window]
  refine ⟨And.left, fun fits => ⟨fits, fun hdr s' run some => ?_⟩⟩
  by_cases good : ValidTable phys t
  · obtain ⟨b, s₁, back, block, new⟩ := mmapTable_valid meets fits good s
    rw [back, Option.some.injEq, Prod.mk.injEq] at run
    obtain ⟨rfl, rfl⟩ := run
    refine ⟨b, new.mem_iff.mpr List.mem_cons_self, rfl, fun i less => ?_⟩
    have whole := block.whole
    exact ⟨by omega, by omega⟩
  · obtain ⟨s₁, back, _⟩ := mmapTable_invalid meets fits good s
    rw [back, Option.some.injEq, Prod.mk.injEq] at run
    exact absurd run.1.symm some

/-- A table of 0x30 bytes at 0x1fe0, with the byte that makes its sum zero on the second page. -/
def acrossPages : Memory := write (write (fun _ => 0) 0x1fe4 4 0x30) 0x2008 1 0xd0

theorem table_window_across :
    InTwoPages acrossPages 0x1fe0 ∧
      validateChecksum acrossPages [firstWindow 4096 0x1fe0] (4096 + 0xfe0) ≠ none ∧
      ∃ hdr s', mmapTable acrossPages gapMapper 0x1fe0 GapState.empty = some (hdr, s') ∧
        ∃ b ∈ gapMapper.blocks s', hdr = b.addr + 0xfe0 ∧ ∀ i < 0x30, b.Has (hdr + i) := by
  have fits : InTwoPages acrossPages 0x1fe0 := by decide
  obtain ⟨sum, window⟩ := (table_window_iff acrossPages 0x1fe0 gapMapper gapMapper_meets
    GapState.empty).mpr fits
  obtain ⟨b, s', run, -⟩ := mmapTable_valid gapMapper_meets fits (by decide) GapState.empty
  have nonnull : b.addr + 0x1fe0 % 4096 ≠ 0 := by omega
  exact ⟨fits, sum, _, s', run, window _ s' run nonnull⟩

/-- A memory in which a table of the given length begins at 0x1000. -/
def tableOf (length : Nat) : Memory := write (fun _ => 0) 0x1004 4 length

/-- A table with one byte more than the two pages. -/
theorem table_window_long :
    ¬InTwoPages (tableOf 0x2001) 0x1000 ∧
      validateChecksum (tableOf 0x2001) [firstWindow 4096 0x1000] 4096 = none ∧
      mmapTable (tableOf 0x2001) gapMapper 0x1000 GapState.empty = none := by
  have long : ¬InTwoPages (tableOf 0x2001) 0x1000 := by decide
  refine ⟨long, ?_, mmapTable_long long _⟩
  by_contra back
  exact long ((validateChecksum_window (tableOf 0x2001) 4096 0x1000).mp back)

end Gapxos
