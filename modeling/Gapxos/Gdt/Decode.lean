import Gapxos.Gdt.Entries

/-! What the processor makes of the descriptors that _add_entry writes. A descriptor of eight
bytes has 32 bits for the base and 20 for the limit. -/
namespace Gapxos
open Bytes

def decodeBase (mem : Memory) (a : Nat) : Nat :=
  (mem (a + 2)).toNat + 2 ^ 8 * (mem (a + 3)).toNat + 2 ^ 16 * (mem (a + 4)).toNat +
    2 ^ 24 * (mem (a + 7)).toNat

def decodeLimit (mem : Memory) (a : Nat) : Nat :=
  let limit := (mem a).toNat + 2 ^ 8 * (mem (a + 1)).toNat +
    2 ^ 16 * ((mem (a + 6)).toNat % 16)
  if (mem (a + 6)).toNat / 128 = 1 then limit * 4096 + 4095 else limit

def decodeEntry (mem : Memory) (a : Nat) : GdtEntry :=
  ⟨decodeBase mem a, decodeLimit mem a, (mem (a + 5)).toNat⟩

/-- Where the last entry of the table is. -/
def lastEntry (s : Gdt) : Nat :=
  (s.base + (s.entries + (2 ^ 64 - 1)) % 2 ^ 64 * gdtEntrySize) % 2 ^ 64

section Fields

variable {mem : Memory} {a : Nat} {e : GdtEntry} {code64 : Nat}

theorem byte_at {i : Nat} (less : i < 8) :
    storeBytes mem a (descriptor e code64) (a + i) = (descriptor e code64).getD i 0 :=
  storeBytes_at less

theorem decodeBase_stored (mem : Memory) (a : Nat) (e : GdtEntry) (code64 : Nat) :
    decodeBase (storeBytes mem a (descriptor e code64)) a = e.base % 2 ^ 32 := by
  rw [decodeBase, byte_at (by decide), byte_at (by decide), byte_at (by decide),
    byte_at (by decide)]
  simp only [descriptor, List.getD_cons_succ, List.getD_cons_zero, BitVec.toNat_ofNat]
  omega

theorem flags_split (long large : Prop) [Decidable long] [Decidable large] {x : Nat}
    (small : x < 16) :
    let b : BitVec 8 := ((if long then 0x20 else 0x00) ||| (if large then 0x80 else 0x00)) |||
      .ofNat 8 x
    b.toNat % 16 = x ∧ (b.toNat / 128 = 1 ↔ large) := by
  have all : ∀ x : Fin 16, ∀ c g : BitVec 8, (c = 0x20 ∨ c = 0x00) → (g = 0x80 ∨ g = 0x00) →
      ((c ||| g) ||| BitVec.ofNat 8 x).toNat % 16 = x ∧
        (((c ||| g) ||| BitVec.ofNat 8 x).toNat / 128 = 1 ↔ g = 0x80) := by
    rintro x c g (rfl | rfl) (rfl | rfl) <;> revert x <;> decide
  by_cases c : long <;> by_cases g : large
  · simpa [c, g] using all ⟨x, small⟩ 0x20 0x80 (.inl rfl) (.inl rfl)
  · simpa [c, g] using all ⟨x, small⟩ 0x20 0x00 (.inl rfl) (.inr rfl)
  · simpa [c, g] using all ⟨x, small⟩ 0x00 0x80 (.inr rfl) (.inl rfl)
  · simpa [c, g] using all ⟨x, small⟩ 0x00 0x00 (.inr rfl) (.inr rfl)

theorem decodeLimit_stored (mem : Memory) (a : Nat) (code64 : Nat) :
    decodeLimit (storeBytes mem a (descriptor e code64)) a =
      if 65536 < e.limit then e.limit / 4096 % 2 ^ 20 * 4096 + 4095 else e.limit := by
  have first : storeBytes mem a (descriptor e code64) a = (descriptor e code64).getD 0 0 :=
    byte_at (i := 0) (by decide)
  rw [decodeLimit, first, byte_at (by decide), byte_at (by decide)]
  simp only [descriptor, List.getD_cons_succ, List.getD_cons_zero, BitVec.toNat_ofNat]
  obtain ⟨low, high⟩ := flags_split (code64 ≠ 0) (65536 < e.limit)
    (x := (if 65536 < e.limit then e.limit / 2 ^ 12 else e.limit) / 2 ^ 16 % 16)
    (Nat.mod_lt _ (by decide))
  simp only [low, high]
  split <;> omega

theorem decodeEntry_stored (mem : Memory) (a : Nat) (code64 : Nat) (type : e.type < 256)
    (fine : e.rejected = false) :
    decodeEntry (storeBytes mem a (descriptor e code64)) a = e ↔
      e.base < 2 ^ 32 ∧ e.limit < 2 ^ 32 := by
  have kind : (storeBytes mem a (descriptor e code64) (a + 5)).toNat = e.type := by
    rw [byte_at (by decide)]
    simp only [descriptor, List.getD_cons_succ, List.getD_cons_zero, BitVec.toNat_ofNat]
    omega
  have whole : 65536 < e.limit → e.limit % 4096 = 4095 := by
    simpa [GdtEntry.rejected] using fine
  obtain ⟨base, limit, kind'⟩ := e
  simp only [decodeEntry, kind, decodeBase_stored, decodeLimit_stored, GdtEntry.mk.injEq, and_true]
  simp only at whole
  split
  · rename_i large
    have pages := whole large
    omega
  · omega

theorem addEntry_stored (a : Alloc) (code64 : Nat) (s : Gdt) (fine : e.rejected = false) :
    ∃ mem, (addEntry a e code64 s).2.mem =
      storeBytes mem (lastEntry (addEntry a e code64 s).2) (descriptor e code64) := by
  simp only [addEntry, fine, Bool.false_eq_true, if_false]
  exact ⟨_, rfl⟩

end Fields

/- A base or a limit of more than 32 bits is accepted and cut. The TSS of a processor comes from
the heap, which is in the upper half. -/
theorem addEntry_decodes_iff (a : Alloc) (e : GdtEntry) (code64 : Nat) (s : Gdt)
    (type : e.type < 256) :
    (e.rejected = true → addEntry a e code64 s = (0, s)) ∧
    (e.rejected = false →
      (decodeEntry (addEntry a e code64 s).2.mem (lastEntry (addEntry a e code64 s).2) = e ↔
        e.base < 2 ^ 32 ∧ e.limit < 2 ^ 32)) ∧
    ∀ tss intStack, (decodeEntry (gdtAddTss tss a intStack s).2.mem
        (lastEntry (gdtAddTss tss a intStack s).2) = ⟨tss.block, tssSize - 1, 0b10001001⟩ ↔
      tss.block < 2 ^ 32) := by
  refine ⟨fun refused => by rw [addEntry, if_pos refused], fun fine => ?_, fun tss intStack => ?_⟩
  · obtain ⟨mem, stored⟩ := addEntry_stored a code64 s fine
    rw [stored, decodeEntry_stored _ _ _ type fine]
  · have fine : (⟨tss.block, tssSize - 1, 0b10001001⟩ : GdtEntry).rejected = false := by
      simp [GdtEntry.rejected, tssSize]
    unfold gdtAddTss
    obtain ⟨mem, stored⟩ := addEntry_stored a 0 _ fine
    rw [stored, decodeEntry_stored _ _ _ (show 0b10001001 < 256 by decide) fine]
    exact and_iff_left (show tssSize - 1 < 2 ^ 32 by decide)

theorem addEntry_decodes_flat :
    decodeEntry (addEntry ⟨0, id, id⟩ ⟨0, 0xffffffff, 0b10010010⟩ 0 tableAt32).2.mem
      (lastEntry (addEntry ⟨0, id, id⟩ ⟨0, 0xffffffff, 0b10010010⟩ 0 tableAt32).2) =
        ⟨0, 0xffffffff, 0b10010010⟩ :=
  ((addEntry_decodes_iff ⟨0, id, id⟩ ⟨0, 0xffffffff, 0b10010010⟩ 0 tableAt32
    (by decide)).2.1 (by decide)).mpr (by decide)

/-- A TSS in the upper half, and a limit of 2^32 pages less one byte. -/
theorem addEntry_truncates :
    decodeEntry (gdtAddTss ⟨0xffffd00000001000, id, id⟩ ⟨0, id, id⟩ 0 tableAt32).2.mem
        (lastEntry (gdtAddTss ⟨0xffffd00000001000, id, id⟩ ⟨0, id, id⟩ 0 tableAt32).2) =
      ⟨0x1000, 103, 0b10001001⟩ ∧
    (⟨0, 0xfffffffffff, 0b10010010⟩ : GdtEntry).rejected = false ∧
    decodeEntry (addEntry ⟨0, id, id⟩ ⟨0, 0xfffffffffff, 0b10010010⟩ 0 tableAt32).2.mem
        (lastEntry (addEntry ⟨0, id, id⟩ ⟨0, 0xfffffffffff, 0b10010010⟩ 0 tableAt32).2) =
      ⟨0, 0xffffffff, 0b10010010⟩ :=
  ⟨rfl, rfl, rfl⟩

end Gapxos
