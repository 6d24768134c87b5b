/-!
# Signed 128-bit integers

Integers from `-2 ^ 127` up to below `2 ^ 127`.
-/

namespace WireSchema

/-- A signed integer of 128 bits. -/
structure Int128 where
  val : Int
  lower : -0x80000000000000000000000000000000 ≤ val
  upper : val < 0x80000000000000000000000000000000
  deriving DecidableEq

namespace Int128

/-- The integer congruent to `n` modulo `2 ^ 128`. -/
def ofInt (n : Int) : Int128 where
  val := n.bmod 0x100000000000000000000000000000000
  lower := by
    have h := @Int.le_bmod n 0x100000000000000000000000000000000 (by decide)
    omega
  upper := by
    have h := @Int.bmod_lt n 0x100000000000000000000000000000000 (by decide)
    omega

/-- Taking an integer of this range back gives it again. -/
@[simp] theorem ofInt_val (n : Int128) : ofInt n.val = n := by
  have h : n.val.bmod 0x100000000000000000000000000000000 = n.val := by
    have hl := n.lower
    have hu := n.upper
    rw [Int.bmod_def]
    split <;> omega
  cases n
  simp_all [ofInt]

end Int128

end WireSchema
