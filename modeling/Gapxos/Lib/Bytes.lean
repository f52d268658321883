import Mathlib.Data.BitVec

/-! Numbers in a memory of bytes, the lowest byte first. -/
namespace Bytes

abbrev Memory := Nat → BitVec 8

/-- The number in `n` bytes from `a` on. -/
def read (m : Memory) (a : Nat) : Nat → Nat
  | 0 => 0
  | n + 1 => (m a).toNat + 256 * read m (a + 1) n

def write (m : Memory) (a n w : Nat) : Memory := fun x =>
  if a ≤ x ∧ x < a + n then BitVec.ofNat 8 (w / 256 ^ (x - a)) else m x

def memcpy (m : Memory) (dst src : Nat) : Nat → Memory
  | 0 => m
  | n + 1 => memcpy (write m dst 1 (m src).toNat) (dst + 1) (src + 1) n

variable {m m' : Memory} {a b n k w : Nat}

theorem write_other {x : Nat} (off : x < a ∨ a + n ≤ x) : write m a n w x = m x :=
  if_neg (by omega)

theorem write_one (m : Memory) (a w x : Nat) :
    write m a 1 w x = if x = a then BitVec.ofNat 8 w else m x := by
  by_cases hit : x = a
  · rw [write, if_pos (by omega), if_pos hit, hit, Nat.sub_self, Nat.pow_zero, Nat.div_one]
  · rw [write_other (by omega), if_neg hit]

theorem read_one (m : Memory) (a : Nat) : read m a 1 = (m a).toNat := by
  rw [read, read, Nat.mul_zero, Nat.add_zero]

theorem write_read_first (m m' : Memory) (a b n : Nat) :
    write m a (n + 1) (read m' b (n + 1)) a = m' b := by
  rw [write, if_pos (by omega), Nat.sub_self, Nat.pow_zero, Nat.div_one, read]
  apply BitVec.eq_of_toNat_eq
  rw [BitVec.toNat_ofNat]
  have byte := (m' b).isLt
  omega

theorem read_congr (same : ∀ x, a ≤ x → x < a + n → m' x = m x) : read m' a n = read m a n := by
  induction n generalizing a with
  | zero => rfl
  | succ n ih =>
    rw [read, read, same a (Nat.le_refl a) (by omega),
      ih fun x low high => same x (by omega) (by omega)]

theorem read_shift (same : ∀ i < n, m' (a + i) = m (b + i)) : read m' a n = read m b n := by
  induction n generalizing a b with
  | zero => rfl
  | succ n ih =>
    have rest : read m' (a + 1) n = read m (b + 1) n := ih fun i below => by
      rw [Nat.add_right_comm, Nat.add_assoc, same (i + 1) (by omega), Nat.add_right_comm b,
        Nat.add_assoc]
    rw [read, read, rest, show m' a = m b from same 0 (Nat.succ_pos n)]

theorem read_write_other (off : a + n ≤ b ∨ b + k ≤ a) :
    read (write m a n w) b k = read m b k := by
  refine read_congr fun x low high => ?_
  rw [write, if_neg (by omega)]

theorem read_write_same (m : Memory) (a n w : Nat) :
    read (write m a n w) a n = w % 256 ^ n := by
  induction n generalizing a w with
  | zero => rw [read, Nat.pow_zero, Nat.mod_one]
  | succ n ih =>
    -- behind the first byte the rest of the number was written
    have rest : read (write m a (n + 1) w) (a + 1) n = w / 256 % 256 ^ n := by
      rw [← ih (a + 1) (w / 256)]
      refine read_congr fun x low high => ?_
      obtain ⟨d, rfl⟩ := Nat.exists_eq_add_of_le low
      rw [write, write, if_pos (by omega), if_pos (by omega), Nat.div_div_eq_div_mul,
        ← Nat.pow_succ', show a + 1 + d - a = d + 1 by omega, Nat.add_sub_cancel_left]
    have first : (write m a (n + 1) w a).toNat = w % 256 := by
      rw [write, if_pos (by omega), Nat.sub_self, Nat.pow_zero, Nat.div_one, BitVec.toNat_ofNat]
    rw [read, rest, first, Nat.pow_succ', Nat.mod_mul]

theorem read_lt (m : Memory) (a n : Nat) : read m a n < 256 ^ n := by
  induction n generalizing a with
  | zero => exact Nat.one_pos
  | succ n ih =>
    have first := (m a).isLt
    have rest := ih (a + 1)
    rw [read, Nat.pow_succ']
    omega

theorem memcpy_apply (off : a + n ≤ b ∨ b + n ≤ a) (x : Nat) :
    memcpy m a b n x = if a ≤ x ∧ x < a + n then m (b + (x - a)) else m x := by
  induction n generalizing m a b with
  | zero => rw [memcpy, if_neg (by omega)]
  | succ n ih =>
    have byte : ∀ y, write m a 1 (m b).toNat y = if y = a then m b else m y := by
      intro y
      rw [write_one, BitVec.ofNat_toNat, BitVec.setWidth_eq]
    rw [memcpy, ih (by omega), byte, byte]
    by_cases first : x = a
    · rw [if_neg (by omega), if_pos first, if_pos (by omega), first, Nat.sub_self, Nat.add_zero]
    · by_cases inside : a ≤ x ∧ x < a + (n + 1)
      · rw [if_pos (by omega), if_neg (by omega), if_pos inside,
          show b + 1 + (x - (a + 1)) = b + (x - a) by omega]
      · rw [if_neg (by omega), if_neg first, if_neg inside]

end Bytes
