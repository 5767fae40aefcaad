import Mathlib

/-!
# Signed 64-bit integers

Timestamps and clock values are signed 64-bit integers. They are integers together with their
range; arithmetic wraps around, and the conversion to an unsigned integer is injective.
-/

namespace Scylla

def I64 : Type := { x : Int // -2 ^ 63 ≤ x ∧ x < 2 ^ 63 }

namespace I64

instance : DecidableEq I64 := inferInstanceAs (DecidableEq { x : Int // -2 ^ 63 ≤ x ∧ x < 2 ^ 63 })

instance : LinearOrder I64 :=
  inferInstanceAs (LinearOrder { x : Int // -2 ^ 63 ≤ x ∧ x < 2 ^ 63 })

def ofInt (x : Int) : I64 :=
  ⟨x.bmod (2 ^ 64), by
    have hlo := Int.le_bmod (x := x) (m := 2 ^ 64) (by decide)
    have hhi := Int.bmod_lt (x := x) (m := 2 ^ 64) (by decide)
    constructor <;> omega⟩

instance (n : Nat) : OfNat I64 n := ⟨ofInt n⟩

instance : Neg I64 := ⟨fun x => ofInt (-x.val)⟩

/-- Subtraction of a duration from a point in time. -/
def sub (x y : I64) : I64 := ofInt (x.val - y.val)

instance : Sub I64 := ⟨sub⟩

def lowest : I64 := ⟨-2 ^ 63, by decide⟩

def highest : I64 := ⟨2 ^ 63 - 1, by decide⟩

theorem lowest_le (x : I64) : lowest ≤ x := x.property.1

theorem le_highest (x : I64) : x ≤ highest := Int.le_sub_one_of_lt x.property.2

def toUnsigned (x : I64) : Nat := (x.val % 2 ^ 64).toNat

theorem toUnsigned_injective : Function.Injective toUnsigned := by
  rintro ⟨x, hx⟩ ⟨y, hy⟩ h
  have hval : x = y := by
    simp only [toUnsigned] at h
    omega
  exact Subtype.ext hval

@[simp] theorem toUnsigned_inj {x y : I64} : x.toUnsigned = y.toUnsigned ↔ x = y :=
  toUnsigned_injective.eq_iff

end I64

end Scylla
