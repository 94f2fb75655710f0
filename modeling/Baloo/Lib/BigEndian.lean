import Mathlib.Data.List.Basic
import Mathlib.Data.Nat.Basic
import Mathlib.Tactic.Ring

/-!
# Numbers as bytes, the most significant first
-/

namespace BigEndian

/-- The last `width` bytes of a number. -/
def toBytes : ℕ → ℕ → List UInt8
  | 0, _ => []
  | width + 1, n => UInt8.ofNat (n / 256 ^ width) :: toBytes width (n % 256 ^ width)

/-- The number behind what has been read so far. -/
def ofBytesFrom (acc : ℕ) (bytes : List UInt8) : ℕ := bytes.foldl (fun acc b => acc * 256 + b.toNat) acc

/-- The number of a byte string. -/
def ofBytes (bytes : List UInt8) : ℕ := ofBytesFrom 0 bytes

@[simp] theorem length_toBytes (width n : ℕ) : (toBytes width n).length = width := by
  induction width generalizing n with
  | zero => rfl
  | succ width ih => rw [toBytes, List.length_cons, ih]

theorem ofBytesFrom_toBytes (width : ℕ) {n : ℕ} (h : n < 256 ^ width) (acc : ℕ) :
    ofBytesFrom acc (toBytes width n) = acc * 256 ^ width + n := by
  induction width generalizing n acc with
  | zero =>
    obtain rfl : n = 0 := by simpa using h
    simp [toBytes, ofBytesFrom]
  | succ width ih =>
    have hpos : 0 < 256 ^ width := Nat.pow_pos (by norm_num)
    have hdigit : n / 256 ^ width < 256 := by
      rw [Nat.div_lt_iff_lt_mul hpos, mul_comm, ← pow_succ]
      exact h
    have hbyte : (UInt8.ofNat (n / 256 ^ width)).toNat = n / 256 ^ width := by
      rw [UInt8.toNat_ofNat', Nat.mod_eq_of_lt hdigit]
    have hstep : ofBytesFrom acc (toBytes (width + 1) n) =
        ofBytesFrom (acc * 256 + n / 256 ^ width) (toBytes width (n % 256 ^ width)) := by
      rw [toBytes, ofBytesFrom, List.foldl_cons, hbyte, ofBytesFrom]
    rw [hstep, ih (Nat.mod_lt _ hpos)]
    calc (acc * 256 + n / 256 ^ width) * 256 ^ width + n % 256 ^ width
        = acc * 256 ^ (width + 1) + (256 ^ width * (n / 256 ^ width) + n % 256 ^ width) := by ring
      _ = acc * 256 ^ (width + 1) + n := by rw [Nat.div_add_mod]

/-- A number that fits is read back. -/
theorem ofBytes_toBytes (width : ℕ) {n : ℕ} (h : n < 256 ^ width) : ofBytes (toBytes width n) = n := by
  rw [ofBytes, ofBytesFrom_toBytes width h, zero_mul, zero_add]

end BigEndian
