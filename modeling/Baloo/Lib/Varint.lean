import Mathlib.Data.List.Basic
import Mathlib.Data.Nat.Basic
import Mathlib.Tactic.Ring

/-!
# Numbers of variable length

A number is written seven bits a byte, the least significant first; the high bit of a byte says that
more bytes follow. `Complete` are the byte strings that are one number and nothing more, `value` is
the number they stand for, and `encode` is the shortest way to write it.
-/

namespace Varint

/-- The shortest bytes of a number. -/
def encode (n : ℕ) : List UInt8 :=
  if n < 128 then [UInt8.ofNat n] else UInt8.ofNat (n % 128 + 128) :: encode (n / 128)

/-- All bytes but the last have the high bit. -/
inductive Complete : List UInt8 → Prop
  /-- the last byte -/
  | last {b : UInt8} (hb : b.toNat < 128) : Complete [b]
  /-- a byte that more bytes follow -/
  | more {b : UInt8} {bytes : List UInt8} (hb : 128 ≤ b.toNat) (hbytes : Complete bytes) : Complete (b :: bytes)

/-- The number behind the bytes. -/
def value : List UInt8 → ℕ
  | [] => 0
  | b :: bytes => b.toNat % 128 + 128 * value bytes

theorem Complete.ne_nil {bytes : List UInt8} (h : Complete bytes) : bytes ≠ [] := by
  cases h <;> exact List.cons_ne_nil _ _

theorem toNat_ofNat {n : ℕ} (h : n < 256) : (UInt8.ofNat n).toNat = n := by
  rw [UInt8.toNat_ofNat', Nat.mod_eq_of_lt h]

theorem complete_encode (n : ℕ) : Complete (encode n) := by
  induction n using encode.induct with
  | case1 n h =>
    rw [encode, if_pos h]
    exact .last (by rw [toNat_ofNat (by omega)]; exact h)
  | case2 n h ih =>
    rw [encode, if_neg h]
    exact .more (by rw [toNat_ofNat (by omega)]; omega) ih

/-- A number is read back. -/
theorem value_encode (n : ℕ) : value (encode n) = n := by
  induction n using encode.induct with
  | case1 n h =>
    rw [encode, if_pos h, value, value, toNat_ofNat (by omega)]
    omega
  | case2 n h ih =>
    rw [encode, if_neg h, value, ih, toNat_ofNat (by omega)]
    omega

/-- A number below `128 ^ k` takes at most `k` bytes. -/
theorem length_encode_le {k n : ℕ} (h : n < 128 ^ (k + 1)) : (encode n).length ≤ k + 1 := by
  induction k generalizing n with
  | zero =>
    rw [encode, if_pos (by omega)]
    exact le_refl 1
  | succ k ih =>
    rw [encode]
    split
    · exact Nat.le_add_left 1 (k + 1)
    · have hdiv : n / 128 < 128 ^ (k + 1) := by
        rw [Nat.div_lt_iff_lt_mul (by norm_num), ← pow_succ]
        exact h
      exact Nat.succ_le_succ (ih hdiv)

end Varint
