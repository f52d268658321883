import Gapxos.Lib.Bytes
import Mathlib.Data.List.Perm.Basic
import Mathlib.Data.List.Pairwise

/-! A byte memory seen through windows of whole pages, and what is asked of the one who maps
them. -/
namespace Windows
open Bytes

structure Block where
  addr : Nat
  base : Nat
  pages : Nat
  deriving DecidableEq

def Block.Has (b : Block) (x : Nat) : Prop := b.addr ≤ x ∧ x < b.addr + 4096 * b.pages

instance (b : Block) (x : Nat) : Decidable (b.Has x) := by unfold Block.Has; infer_instance

def Block.Apart (b c : Block) : Prop :=
  b.addr + 4096 * b.pages ≤ c.addr ∨ c.addr + 4096 * c.pages ≤ b.addr

def byte (m : Memory) (bs : List Block) (x : Nat) : Option (BitVec 8) :=
  (bs.find? fun b => b.Has x).map fun b => m (b.base + (x - b.addr))

/-- A number of `n` bytes, the lowest first. -/
def load (m : Memory) (bs : List Block) (x : Nat) : Nat → Option Nat
  | 0 => some 0
  | n + 1 => do
    let first ← byte m bs x
    let rest ← load m bs (x + 1) n
    some (first.toNat + 256 * rest)

def Shows (bs : List Block) (x y n : Nat) : Prop :=
  ∃ b ∈ bs, b.addr ≤ x ∧ x + n ≤ b.addr + 4096 * b.pages ∧ y = b.base + (x - b.addr)

section Reading

variable {m : Memory} {bs cs : List Block} {x y n i k : Nat}

theorem byte_none (out : ∀ b ∈ bs, ¬b.Has x) : byte m bs x = none := by
  have missing : (bs.find? fun b => b.Has x) = none := by
    rw [List.find?_eq_none]
    intro b inside
    simpa using out b inside
  rw [byte, missing, Option.map_none]

theorem Shows.perm (seen : Shows bs x y n) (same : cs.Perm bs) : Shows cs x y n := by
  obtain ⟨b, inside, rest⟩ := seen
  exact ⟨b, same.mem_iff.mpr inside, rest⟩

theorem Shows.byte (seen : Shows bs x y n) (apart : bs.Pairwise Block.Apart) (inside : i < n) :
    byte m bs (x + i) = some (m (y + i)) := by
  obtain ⟨b, mem, low, high, rfl⟩ := seen
  have has : b.Has (x + i) := ⟨by omega, by omega⟩
  have symm : Std.Symm Block.Apart := ⟨fun _ _ off => off.symm⟩
  obtain ⟨c, found⟩ : ∃ c, (bs.find? fun b => b.Has (x + i)) = some c := by
    rw [← Option.isSome_iff_exists, List.find?_isSome]
    exact ⟨b, mem, by simpa using has⟩
  have same : c = b := by
    by_contra other
    have off := apart.forall (List.mem_of_find?_eq_some found) mem other
    have hasC : c.Has (x + i) := by simpa using List.find?_some found
    obtain ⟨lowC, highC⟩ := hasC
    rcases off with off | off <;> omega
  rw [Windows.byte, found, Option.map_some, same, show b.base + (x + i - b.addr) =
    b.base + (x - b.addr) + i by omega]

theorem Shows.load (seen : Shows bs x y n) (apart : bs.Pairwise Block.Apart)
    (inside : i + k ≤ n) : load m bs (x + i) k = some (read m (y + i) k) := by
  induction k generalizing i with
  | zero => rfl
  | succ k ih =>
    have first : Windows.byte m bs (x + i) = some (m (y + i)) := seen.byte apart (by omega)
    have rest : Windows.load m bs (x + (i + 1)) k = some (read m (y + (i + 1)) k) := ih (by omega)
    rw [Windows.load, first, Nat.add_assoc, rest, Bytes.read]
    rfl

end Reading

/-- One who hands out windows: `map s base pages` and `free s addr`. -/
structure Mapper (σ : Type) where
  map : σ → Nat → Nat → Nat × σ
  free : σ → Nat → σ
  blocks : σ → List Block

/-- A new window overlaps no other and does not start at 0; a window that is freed goes, and
nothing else does. -/
structure Mapper.Meets {σ : Type} (M : Mapper σ) : Prop where
  apart : ∀ s, (M.blocks s).Pairwise Block.Apart
  shape : ∀ s, ∀ b ∈ M.blocks s, 0 < b.pages ∧ b.addr % 4096 = 0 ∧ b.addr ≠ 0
  mapped : ∀ s base pages, base % 4096 = 0 → 0 < pages →
    (M.blocks (M.map s base pages).2).Perm (⟨(M.map s base pages).1, base, pages⟩ :: M.blocks s)
  freed : ∀ s addr,
    (M.blocks (M.free s addr)).Perm ((M.blocks s).filter fun b => b.addr ≠ addr)

section Contract

variable {σ : Type} {M : Mapper σ} {s s' : σ} {b : Block}

theorem Mapper.Meets.undo (meets : M.Meets) (new : (M.blocks s').Perm (b :: M.blocks s)) :
    (M.blocks (M.free s' b.addr)).Perm (M.blocks s) := by
  have apart : (b :: M.blocks s).Pairwise Block.Apart :=
    (new.pairwise_iff fun off => off.symm).mp (meets.apart s')
  have size := (meets.shape s' b (new.mem_iff.mpr List.mem_cons_self)).1
  have keep : ∀ c ∈ M.blocks s, decide (c.addr ≠ b.addr) = true := by
    intro c old
    have off := List.rel_of_pairwise_cons apart old
    have sizeC := (meets.shape s c old).1
    rcases off with off | off <;> simp only [ne_eq, decide_eq_true_eq] <;> omega
  refine (meets.freed s' b.addr).trans ((new.filter _).trans ?_)
  rw [List.filter_cons_of_neg (by simp), List.filter_eq_self.mpr keep]

theorem Mapper.Meets.null (meets : M.Meets) (m : Memory) (s : σ) :
    byte m (M.blocks s) 0 = none := by
  apply byte_none
  intro b inside has
  obtain ⟨_, _, start⟩ := meets.shape s b inside
  exact start (Nat.le_zero.mp has.1)

end Contract

/-- Windows handed out one after the other, each with a free page behind it. -/
structure GapState where
  blocks : List Block
  next : Nat
  apart : blocks.Pairwise Block.Apart
  shape : ∀ b ∈ blocks, 0 < b.pages ∧ b.addr % 4096 = 0 ∧ b.addr ≠ 0
  below : ∀ b ∈ blocks, b.addr + 4096 * b.pages ≤ next
  start : next % 4096 = 0 ∧ next ≠ 0

def GapState.empty : GapState := ⟨[], 4096, by simp, by simp, by simp, by decide⟩

def GapState.map (s : GapState) (base pages : Nat) : Nat × GapState :=
  if size : 0 < pages then
    (s.next, {
      blocks := ⟨s.next, base, pages⟩ :: s.blocks
      next := s.next + 4096 * (pages + 1)
      apart := List.pairwise_cons.mpr ⟨fun b old => .inr (s.below b old), s.apart⟩
      shape := List.forall_mem_cons.mpr ⟨⟨size, s.start⟩, s.shape⟩
      below := List.forall_mem_cons.mpr ⟨by show s.next + 4096 * pages ≤ _; omega,
        fun b old => Nat.le_trans (s.below b old) (by omega)⟩
      start := by have := s.start; omega })
  else (0, s)

def GapState.free (s : GapState) (addr : Nat) : GapState where
  blocks := s.blocks.filter fun b => b.addr ≠ addr
  next := s.next
  apart := s.apart.filter _
  shape := fun b kept => s.shape b (List.mem_of_mem_filter kept)
  below := fun b kept => s.below b (List.mem_of_mem_filter kept)
  start := s.start

def gapMapper : Mapper GapState := ⟨GapState.map, GapState.free, GapState.blocks⟩

theorem gapMapper_meets : gapMapper.Meets where
  apart := GapState.apart
  shape := GapState.shape
  mapped s base pages _ size := by
    show ((s.map base pages).2.blocks).Perm (⟨(s.map base pages).1, base, pages⟩ :: s.blocks)
    rw [GapState.map, dif_pos size]
  freed _ _ := List.Perm.refl _

theorem GapState.map_guard (m : Memory) (s : GapState) (base : Nat) {pages x : Nat}
    (size : 0 < pages) (behind : (s.map base pages).1 + 4096 * pages ≤ x) :
    byte m (s.map base pages).2.blocks x = none := by
  apply byte_none
  rw [GapState.map, dif_pos size] at behind ⊢
  show ∀ b ∈ ⟨s.next, base, pages⟩ :: s.blocks, ¬b.Has x
  rw [List.forall_mem_cons]
  constructor
  · rintro ⟨_, high⟩
    exact absurd behind (Nat.not_le.mpr high)
  · rintro b old ⟨_, high⟩
    have := s.below b old
    have : s.next + 4096 * pages ≤ x := behind
    omega

end Windows
