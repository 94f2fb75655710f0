import Baloo.Store
import Baloo.Lib.BigEndian
import Baloo.Lib.Varint
import Mathlib.Data.List.Forall2
import Mathlib.Data.Nat.Bitwise

/-!
# The position codec

`PositionCodec` stores where a term occurs: entry after entry, without separators, the id of a document
in eight bytes, the number of positions, and each position as the difference from the one before it.
The differences wrap around at `2 ^ 32`, so any order of the positions is kept
(`decode_encode`).

The decoder moves a pointer through the array. A pointer is modelled by the bytes from it up to the
limit, none when it stands at the limit or behind it; reading a byte is a partial function. The
functions on variable-length numbers look at the limit before they read, `decodeFixed64` does not: the
decoder reads behind the array exactly when an array ends within the id of an entry
(`decode_safe_iff`).
-/

namespace Baloo

namespace PositionCodec

open BigEndian (toBytes ofBytes)

/-! ## Writing -/

/-- `putFixed64`: the bytes of the host, the least significant first. -/
def putFixed64 (dst : QByteArray) (value : DocId) : QByteArray := dst ++ (toBytes 8 value).reverse

/-- `encodeVarint32Internal`. -/
def encodeVarint32Internal (v : UInt32) : QByteArray :=
  let B : UInt32 := 128
  if v < (1 : UInt32) <<< 7 then [v.toUInt8]
  else if v < (1 : UInt32) <<< 14 then [(v ||| B).toUInt8, (v >>> 7).toUInt8]
  else if v < (1 : UInt32) <<< 21 then [(v ||| B).toUInt8, (v >>> 7 ||| B).toUInt8, (v >>> 14).toUInt8]
  else if v < (1 : UInt32) <<< 28 then
    [(v ||| B).toUInt8, (v >>> 7 ||| B).toUInt8, (v >>> 14 ||| B).toUInt8, (v >>> 21).toUInt8]
  else
    [(v ||| B).toUInt8, (v >>> 7 ||| B).toUInt8, (v >>> 14 ||| B).toUInt8, (v >>> 21 ||| B).toUInt8,
      (v >>> 28).toUInt8]

/-- The loop of `putDifferentialVarInt32`, `v` being the value before. -/
def putDifferences (v : UInt32) : List UInt32 → QByteArray
  | [] => []
  | n :: values => encodeVarint32Internal (n - v) ++ putDifferences n values

/-- `putDifferentialVarInt32`; what it leaves in the temporary storage. -/
def differentialVarInt32 (values : List UInt32) : QByteArray :=
  encodeVarint32Internal (UInt32.ofNat values.length) ++ putDifferences 0 values

/-- `putDifferentialVarInt32`. -/
def putDifferentialVarInt32 (dst : QByteArray) (values : List UInt32) : QByteArray :=
  dst ++ differentialVarInt32 values

/-- `PositionCodec::encode`. -/
def encode (list : List PositionInfo) : QByteArray :=
  list.foldl (fun data pos => putDifferentialVarInt32 (putFixed64 data pos.docId) pos.positions) []

/-! A byte of a variable-length number, as arithmetic. -/

theorem toNat_shiftRight (v s : UInt32) (hs : s.toNat < 32) : (v >>> s).toNat = v.toNat / 2 ^ s.toNat := by
  rw [UInt32.toNat_shiftRight, Nat.mod_eq_of_lt hs, Nat.shiftRight_eq_div_pow]

/-- The high bit of a byte is set, the others are kept. -/
theorem or_128_mod (n : ℕ) : (n ||| 128) % 256 = n % 128 + 128 := by
  have hmod : (n ||| 128) % 256 = n % 256 ||| 128 := Nat.or_mod_two_pow (n := 8)
  have hadd : ∀ r < 128, 128 ||| r = 128 + r := fun r hr => (Nat.two_pow_add_eq_or_of_lt (i := 7) hr 1).symm
  rw [hmod]
  rcases lt_or_ge (n % 256) 128 with hlt | hge
  · rw [Nat.or_comm, hadd _ hlt]
    omega
  · have hsplit : n % 256 = 128 ||| n % 128 := by
      rw [hadd _ (Nat.mod_lt _ (by norm_num))]
      omega
    rw [hsplit, Nat.or_comm, ← Nat.or_assoc, Nat.or_self, hadd _ (Nat.mod_lt _ (by norm_num)), Nat.add_comm]

theorem toUInt8_or_128 (v : UInt32) : (v ||| 128).toUInt8 = UInt8.ofNat (v.toNat % 128 + 128) := by
  refine UInt8.toNat_inj.mp ?_
  rw [UInt32.toNat_toUInt8, UInt32.toNat_or, UInt8.toNat_ofNat']
  exact (or_128_mod v.toNat).trans (Nat.mod_eq_of_lt (by omega)).symm

theorem toUInt8_eq (v : UInt32) : v.toUInt8 = UInt8.ofNat v.toNat := by
  refine UInt8.toNat_inj.mp ?_
  rw [UInt32.toNat_toUInt8, UInt8.toNat_ofNat']

/-- The five cases write the shortest bytes of the number. -/
theorem encodeVarint32Internal_eq (v : UInt32) : encodeVarint32Internal v = Varint.encode v.toNat := by
  have h7 : (v >>> 7).toNat = v.toNat / 128 := toNat_shiftRight v 7 (by decide)
  have h14 : (v >>> 14).toNat = v.toNat / 128 / 128 := by
    rw [toNat_shiftRight v 14 (by decide), Nat.div_div_eq_div_mul]
    rfl
  have h21 : (v >>> 21).toNat = v.toNat / 128 / 128 / 128 := by
    rw [toNat_shiftRight v 21 (by decide), Nat.div_div_eq_div_mul, Nat.div_div_eq_div_mul]
    rfl
  have h28 : (v >>> 28).toNat = v.toNat / 128 / 128 / 128 / 128 := by
    rw [toNat_shiftRight v 28 (by decide), Nat.div_div_eq_div_mul, Nat.div_div_eq_div_mul,
      Nat.div_div_eq_div_mul]
    rfl
  have hlt : ∀ k < 2 ^ 32, v < UInt32.ofNat k ↔ v.toNat < k := fun k hk => by
    rw [UInt32.lt_iff_toNat_lt, UInt32.toNat_ofNat', Nat.mod_eq_of_lt hk]
  have hbound : v.toNat < 2 ^ 32 := v.toNat_lt
  have hl7 : v < (1 : UInt32) <<< 7 ↔ v.toNat < 128 := hlt 128 (by omega)
  have hl14 : v < (1 : UInt32) <<< 14 ↔ v.toNat / 128 < 128 := (hlt 16384 (by omega)).trans (by omega)
  have hl21 : v < (1 : UInt32) <<< 21 ↔ v.toNat / 128 / 128 < 128 := (hlt 2097152 (by omega)).trans (by omega)
  have hl28 : v < (1 : UInt32) <<< 28 ↔ v.toNat / 128 / 128 / 128 < 128 := (hlt 268435456 (by omega)).trans (by omega)
  simp only [encodeVarint32Internal, toUInt8_or_128]
  simp only [toUInt8_eq, h7, h14, h21, h28, hl7, hl14, hl21, hl28]
  rw [Varint.encode]
  split_ifs with c7 c14 c21 c28
  · rfl
  · rw [Varint.encode, if_pos c14]
  · rw [Varint.encode, if_neg c14, Varint.encode, if_pos c21]
  · rw [Varint.encode, if_neg c14, Varint.encode, if_neg c21, Varint.encode, if_pos c28]
  · rw [Varint.encode, if_neg c14, Varint.encode, if_neg c21, Varint.encode, if_neg c28, Varint.encode, if_pos]
    omega

theorem length_encodeVarint32Internal_le (v : UInt32) : (encodeVarint32Internal v).length ≤ 5 := by
  rw [encodeVarint32Internal_eq]
  exact Varint.length_encode_le (v.toNat_lt.trans_le (by omega))

/-- The temporary storage is large enough: five bytes for the size and for each value. -/
theorem length_differentialVarInt32_le (values : List UInt32) :
    (differentialVarInt32 values).length ≤ (values.length + 1) * 5 := by
  have hall : ∀ v, (putDifferences v values).length ≤ values.length * 5 := by
    induction values with
    | nil => exact fun v => le_refl 0
    | cons n values ih =>
      intro v
      have hn := length_encodeVarint32Internal_le (n - v)
      have hrest := ih n
      rw [putDifferences, List.length_append, List.length_cons]
      omega
  have hsize := length_encodeVarint32Internal_le (UInt32.ofNat values.length)
  have hvalues := hall 0
  rw [differentialVarInt32, List.length_append]
  omega

/-! ## Reading -/

/-- A byte outside of the array was read. -/
inductive Fault where
  | outside
  deriving DecidableEq

/-- A pointer into the array: the bytes from it up to the limit. -/
abbrev Pointer : Type := List UInt8

/-- Reading the byte at a pointer. -/
def readByte : Pointer → Except Fault UInt8
  | [] => .error .outside
  | b :: _ => .ok b

/-- `decodeFixed64`: eight bytes are loaded, wherever the limit is. -/
def decodeFixed64 (ptr : Pointer) : Except Fault DocId :=
  if ptr.length < 8 then .error .outside else .ok (ofBytes (ptr.take 8).reverse)

/-- The loop of `getVarint32PtrFallback`, over the values `shift` takes. -/
def fallbackLoop : List ℕ → Pointer → UInt32 → Except Fault (Option (Pointer × UInt32))
  | [], _, _ => .ok none
  | shift :: shifts, p, result =>
    if p = [] then .ok none
    else do
      let b ← readByte p
      let byte := b.toUInt32
      if byte &&& 128 ≠ 0 then
        -- more bytes are present
        fallbackLoop shifts p.tail (result ||| (byte &&& 127) <<< UInt32.ofNat shift)
      else return some (p.tail, result ||| byte <<< UInt32.ofNat shift)

/-- `getVarint32PtrFallback`: `shift` goes from `0` to `28` by sevens. `none` is the null pointer. -/
def getVarint32PtrFallback (p : Pointer) : Except Fault (Option (Pointer × UInt32)) :=
  fallbackLoop (List.range' 0 5 7) p 0

/-- `getVarint32Ptr`. -/
def getVarint32Ptr (p : Pointer) : Except Fault (Option (Pointer × UInt32)) :=
  if p = [] then .ok none
  else do
    let b ← readByte p
    let result := b.toUInt32
    if result &&& 128 = 0 then return some (p.tail, result) else getVarint32PtrFallback p

/-- The loop of `getDifferentialVarInt32`: so many values are still to be read, `v` is the one before,
`values` are those read so far. -/
def readDifferences : ℕ → Option Pointer → UInt32 → List UInt32 → Except Fault (Option Pointer × List UInt32)
  | 0, p, _, values => .ok (p, values)
  | _ + 1, none, _, values => .ok (none, values)
  | todo + 1, some p, v, values => do
    match ← getVarint32Ptr p with
    | none => readDifferences todo none v (values ++ [v])
    | some (p, n) => readDifferences todo (some p) (v + n) (values ++ [n + v])

/-- `getDifferentialVarInt32`. -/
def getDifferentialVarInt32 (p : Pointer) : Except Fault (Option Pointer × List UInt32) := do
  match ← getVarint32Ptr p with
  | none => return (none, [])
  | some (p, size) => readDifferences size.toNat (some p) 0 []

/-- The body of the loop of `PositionCodec::decode`; `none` when it returns from it. -/
def decodeEntry (data : Pointer) : Except Fault (Option (Pointer × PositionInfo)) := do
  let docId ← decodeFixed64 data
  match ← getDifferentialVarInt32 (data.drop 8) with
  | (none, _) => return none
  | (some data, positions) => return some (data, { docId, positions })

/-! What complete bytes are read as. -/

/-- The bytes of a 32-bit number. -/
def Short (bytes : QByteArray) : Prop := Varint.Complete bytes ∧ bytes.length ≤ 5

/-- The 32-bit number of its bytes. The bits beyond are lost. -/
def number (bytes : QByteArray) : UInt32 := UInt32.ofNat (Varint.value bytes)

/-- The positions behind their differences. -/
def runningSums (v : UInt32) : List UInt32 → List UInt32
  | [] => []
  | n :: differences => (n + v) :: runningSums (v + n) differences

theorem high_bit (b : UInt8) : b.toUInt32 &&& 128 ≠ 0 ↔ 128 ≤ b.toNat := by
  have hand : (b.toUInt32 &&& 128).toNat = (b.toNat.testBit 7).toNat * 128 := by
    rw [UInt32.toNat_and, UInt8.toNat_toUInt32]
    exact Nat.and_two_pow b.toNat 7
  have hbit : b.toNat.testBit 7 = decide (128 ≤ b.toNat) := by
    rw [Nat.testBit_eq_decide_div_mod_eq, decide_eq_decide]
    have hb : b.toNat < 256 := b.toNat_lt
    omega
  rw [ne_eq, ← UInt32.toNat_inj, hand, hbit]
  by_cases h : 128 ≤ b.toNat
  · simp [h]
  · simp [h]

theorem toNat_and_127 (b : UInt8) : (b.toUInt32 &&& 127).toNat = b.toNat % 128 := by
  rw [UInt32.toNat_and, UInt8.toNat_toUInt32]
  exact Nat.and_two_pow_sub_one_eq_mod b.toNat 7

/-- Bits above those read so far are added. -/
theorem or_shiftLeft {r d : UInt32} {s : ℕ} (hs : s < 32) (hr : r.toNat < 2 ^ s) :
    r ||| d <<< UInt32.ofNat s = UInt32.ofNat (r.toNat + 2 ^ s * d.toNat) := by
  refine UInt32.toNat_inj.mp ?_
  have hshift : (UInt32.ofNat s).toNat % 32 = s := by
    rw [UInt32.toNat_ofNat', Nat.mod_eq_of_lt (Nat.lt_trans hs (by omega)), Nat.mod_eq_of_lt hs]
  have hpow : 2 ^ 32 = 2 ^ s * 2 ^ (32 - s) := by
    rw [← pow_add, Nat.add_sub_cancel' hs.le]
  -- the bits that do not fit are lost in both
  have hlost : 2 ^ s * d.toNat % 2 ^ 32 = 2 ^ s * (d.toNat % 2 ^ (32 - s)) := by
    rw [hpow, Nat.mul_mod_mul_left]
  have hfits : 2 ^ s * (d.toNat % 2 ^ (32 - s)) + r.toNat < 2 ^ 32 := by
    have hd : d.toNat % 2 ^ (32 - s) < 2 ^ (32 - s) := Nat.mod_lt _ (Nat.two_pow_pos _)
    calc 2 ^ s * (d.toNat % 2 ^ (32 - s)) + r.toNat
        < 2 ^ s * (d.toNat % 2 ^ (32 - s)) + 2 ^ s := Nat.add_lt_add_left hr _
      _ = 2 ^ s * (d.toNat % 2 ^ (32 - s) + 1) := by ring
      _ ≤ 2 ^ s * 2 ^ (32 - s) := Nat.mul_le_mul_left _ hd
      _ = 2 ^ 32 := hpow.symm
  have hsum : (r.toNat + 2 ^ s * d.toNat) % 2 ^ 32 = 2 ^ s * (d.toNat % 2 ^ (32 - s)) + r.toNat := by
    rw [Nat.add_comm, ← Nat.mod_add_mod, hlost, Nat.mod_eq_of_lt hfits]
  rw [UInt32.toNat_or, UInt32.toNat_shiftLeft, hshift, Nat.shiftLeft_eq, Nat.mul_comm d.toNat, hlost,
    Nat.or_comm, ← Nat.two_pow_add_eq_or_of_lt hr, UInt32.toNat_ofNat', hsum]

/-- The loop on the bytes of a number, when it has rounds enough. -/
theorem fallbackLoop_complete {bytes : QByteArray} (h : Varint.Complete bytes) (rest : QByteArray) {s rounds : ℕ}
    (hs : s + 7 * rounds = 35) (hlen : bytes.length ≤ rounds) {r : UInt32} (hr : r.toNat < 2 ^ s) :
    fallbackLoop (List.range' s rounds 7) (bytes ++ rest) r =
      .ok (some (rest, UInt32.ofNat (r.toNat + 2 ^ s * Varint.value bytes))) := by
  induction h generalizing s rounds r with
  | @last b hb =>
    obtain ⟨rounds, rfl⟩ : ∃ k, rounds = k + 1 := ⟨rounds - 1, by simp at hlen; omega⟩
    have hlow : ¬b.toUInt32 &&& 128 ≠ 0 := fun h => absurd ((high_bit b).mp h) (not_le.mpr hb)
    rw [List.range'_succ, List.singleton_append, fallbackLoop, if_neg (List.cons_ne_nil _ _), readByte]
    simp only [bind, Except.bind, if_neg hlow, pure, Except.pure, List.tail_cons]
    rw [or_shiftLeft (by omega) hr, UInt8.toNat_toUInt32, Varint.value, Varint.value, Nat.mod_eq_of_lt hb,
      Nat.mul_zero, Nat.add_zero]
  | @more b bytes hb hbytes ih =>
    have hne : 0 < bytes.length := List.length_pos_iff.mpr hbytes.ne_nil
    rw [List.length_cons] at hlen
    obtain ⟨rounds, rfl⟩ : ∃ k, rounds = k + 1 := ⟨rounds - 1, by omega⟩
    have hhigh : b.toUInt32 &&& 128 ≠ 0 := (high_bit b).mpr hb
    -- a byte that is followed by another one is not the last of five, so its bits fit
    have hpow : 2 ^ s ≤ 2 ^ 21 := Nat.pow_le_pow_right (by norm_num) (by omega)
    have hnext : (r ||| (b.toUInt32 &&& 127) <<< UInt32.ofNat s).toNat = r.toNat + 2 ^ s * (b.toNat % 128) := by
      have hb128 : b.toNat % 128 < 128 := Nat.mod_lt _ (by norm_num)
      have hle : 2 ^ s * (b.toNat % 128) ≤ 2 ^ 21 * 127 := Nat.mul_le_mul hpow (by omega)
      rw [or_shiftLeft (by omega) hr, toNat_and_127, UInt32.toNat_ofNat', Nat.mod_eq_of_lt]
      omega
    have hlt : (r ||| (b.toUInt32 &&& 127) <<< UInt32.ofNat s).toNat < 2 ^ (s + 7) := by
      have hle : 2 ^ s * (b.toNat % 128) ≤ 2 ^ s * 127 := Nat.mul_le_mul_left _ (by omega)
      rw [hnext, pow_add]
      omega
    rw [List.range'_succ, List.cons_append, fallbackLoop, if_neg (List.cons_ne_nil _ _), readByte]
    simp only [bind, Except.bind, if_pos hhigh, List.tail_cons]
    rw [ih (by omega) (by omega) hlt, hnext, Varint.value, pow_add]
    congr 4
    ring

/-- The loop reads a number or it ends with the null pointer. -/
theorem fallbackLoop_cases (shifts : List ℕ) (p : Pointer) (r : UInt32) :
    fallbackLoop shifts p r = .ok none ∨
      ∃ bytes rest, p = bytes ++ rest ∧ Varint.Complete bytes ∧ bytes.length ≤ shifts.length := by
  induction shifts generalizing p r with
  | nil => exact .inl rfl
  | cons s shifts ih =>
    cases p with
    | nil => exact .inl (by rw [fallbackLoop, if_pos rfl])
    | cons b p =>
      by_cases hb : 128 ≤ b.toNat
      · have hhigh : b.toUInt32 &&& 128 ≠ 0 := (high_bit b).mpr hb
        rw [fallbackLoop, if_neg (List.cons_ne_nil _ _), readByte]
        simp only [bind, Except.bind, if_pos hhigh, List.tail_cons]
        refine (ih p _).imp_right ?_
        rintro ⟨bytes, rest, rfl, hbytes, hlen⟩
        exact ⟨b :: bytes, rest, rfl, .more hb hbytes, Nat.succ_le_succ hlen⟩
      · exact .inr ⟨[b], p, rfl, .last (not_le.mp hb), Nat.le_add_left 1 _⟩

/-- A number is read and the pointer moves behind it. -/
theorem getVarint32Ptr_short {bytes : QByteArray} (h : Short bytes) (rest : QByteArray) :
    getVarint32Ptr (bytes ++ rest) = .ok (some (rest, number bytes)) := by
  obtain ⟨hcomplete, hlen⟩ := h
  have hfallback : getVarint32PtrFallback (bytes ++ rest) = .ok (some (rest, number bytes)) := by
    have hloop := @fallbackLoop_complete bytes hcomplete rest 0 5 rfl hlen 0 (by simp)
    rw [getVarint32PtrFallback, hloop, number]
    simp
  rw [getVarint32Ptr, if_neg (by simp [hcomplete.ne_nil]), hfallback]
  cases hcomplete with
  | @last b hb =>
    -- the fast path for a number of one byte
    have hlow : b.toUInt32 &&& 128 = 0 := by
      by_contra h
      exact absurd ((high_bit b).mp h) (not_le.mpr hb)
    have hnumber : number [b] = b.toUInt32 := by
      refine UInt32.toNat_inj.mp ?_
      have hb' : b.toNat < 2 ^ 32 := hb.trans (by omega)
      rw [number, Varint.value, Varint.value, UInt32.toNat_ofNat', UInt8.toNat_toUInt32, Nat.mod_eq_of_lt hb,
        Nat.mul_zero, Nat.add_zero, Nat.mod_eq_of_lt hb']
    rw [List.singleton_append, readByte]
    simp only [bind, Except.bind, pure, Except.pure, if_pos hlow, List.tail_cons, hnumber]
  | @more b bytes hb hbytes =>
    have hhigh : ¬b.toUInt32 &&& 128 = 0 := (high_bit b).mpr hb
    rw [List.cons_append, readByte]
    simp only [bind, Except.bind, if_neg hhigh]

theorem getVarint32Ptr_cases (p : Pointer) :
    getVarint32Ptr p = .ok none ∨ ∃ bytes rest, p = bytes ++ rest ∧ Short bytes := by
  cases p with
  | nil => exact .inl (by rw [getVarint32Ptr, if_pos rfl])
  | cons b p =>
    by_cases hb : b.toUInt32 &&& 128 = 0
    · have hlow : b.toNat < 128 := not_le.mp fun h => (high_bit b).mpr h hb
      exact .inr ⟨[b], p, rfl, .last hlow, by simp⟩
    · rw [getVarint32Ptr, if_neg (List.cons_ne_nil _ _), readByte]
      simp only [bind, Except.bind, if_neg hb]
      refine (fallbackLoop_cases (List.range' 0 5 7) (b :: p) 0).imp_right ?_
      rintro ⟨bytes, rest, hp, hbytes, hlen⟩
      exact ⟨bytes, rest, hp, hbytes, by simpa using hlen⟩

/-- Differences are read and summed up. -/
theorem readDifferences_short {deltas : List QByteArray} (h : ∀ d ∈ deltas, Short d) (rest : QByteArray)
    (v : UInt32) (values : List UInt32) :
    readDifferences deltas.length (some (deltas.flatten ++ rest)) v values =
      .ok (some rest, values ++ runningSums v (deltas.map number)) := by
  induction deltas generalizing v values with
  | nil => simp [readDifferences, runningSums]
  | cons d deltas ih =>
    have hd : Short d := h d List.mem_cons_self
    have hrest := ih (fun d hd => h d (List.mem_cons_of_mem _ hd)) (v + number d) (values ++ [number d + v])
    rw [List.length_cons, List.flatten_cons, List.append_assoc, readDifferences, getVarint32Ptr_short hd]
    simp only [bind, Except.bind]
    rw [hrest, List.map_cons, runningSums, List.append_assoc, List.singleton_append]

theorem readDifferences_none (todo : ℕ) (v : UInt32) (values : List UInt32) :
    readDifferences todo none v values = .ok (none, values) := by
  cases todo <;> rfl

/-- Either all differences are there or the null pointer is returned. -/
theorem readDifferences_cases (todo : ℕ) (p : Pointer) (v : UInt32) (values : List UInt32) :
    (∃ values', readDifferences todo (some p) v values = .ok (none, values')) ∨
      ∃ (deltas : List QByteArray) (rest : Pointer),
        p = deltas.flatten ++ rest ∧ (∀ d ∈ deltas, Short d) ∧ deltas.length = todo := by
  induction todo generalizing p v values with
  | zero => exact .inr ⟨[], p, rfl, by simp, rfl⟩
  | succ todo ih =>
    rcases getVarint32Ptr_cases p with hnone | ⟨d, rest, rfl, hd⟩
    · refine .inl ⟨values ++ [v], ?_⟩
      rw [readDifferences, hnone]
      exact readDifferences_none todo v (values ++ [v])
    · rw [readDifferences, getVarint32Ptr_short hd]
      refine (ih rest (v + number d) (values ++ [number d + v])).imp_right ?_
      rintro ⟨deltas, rest, rfl, hdeltas, hlen⟩
      exact ⟨d :: deltas, rest, by simp, List.forall_mem_cons.mpr ⟨hd, hdeltas⟩, by simp [hlen]⟩

/-- The bytes of an entry, complete, and what they say. -/
inductive Coded : QByteArray → PositionInfo → Prop
  /-- the id, the number of positions, and their differences -/
  | entry {docId count : QByteArray} {deltas : List QByteArray} (hdocId : docId.length = 8)
      (hcount : Short count) (hdeltas : ∀ d ∈ deltas, Short d) (hsize : (number count).toNat = deltas.length) :
      Coded (docId ++ (count ++ deltas.flatten))
        { docId := ofBytes docId.reverse, positions := runningSums 0 (deltas.map number) }

/-- An entry is read and the pointer moves behind it. -/
theorem decodeEntry_coded {bytes : QByteArray} {info : PositionInfo} (h : Coded bytes info) (rest : QByteArray) :
    decodeEntry (bytes ++ rest) = .ok (some (rest, info)) := by
  obtain ⟨hdocId, hcount, hdeltas, hsize⟩ := h
  rename_i docId count deltas
  have hfixed : decodeFixed64 (docId ++ (count ++ deltas.flatten) ++ rest) = .ok (ofBytes docId.reverse) := by
    rw [decodeFixed64, if_neg (by simp only [List.length_append]; omega), List.append_assoc,
      List.take_left' hdocId]
  have hrest := readDifferences_short hdeltas rest 0 []
  rw [decodeEntry, hfixed]
  simp only [bind, Except.bind, getDifferentialVarInt32]
  rw [List.append_assoc, List.drop_left' hdocId, List.append_assoc, getVarint32Ptr_short hcount]
  simp only [hsize, hrest, List.nil_append, pure, Except.pure]

theorem decodeEntry_outside {data : Pointer} (h : data.length < 8) : decodeEntry data = .error .outside := by
  rw [decodeEntry, decodeFixed64, if_pos h]
  rfl

/-- What the body of the loop does: it reads behind the array, it gives up, or it reads an entry. -/
theorem decodeEntry_cases (data : Pointer) :
    data.length < 8 ∨ decodeEntry data = .ok none ∨ ∃ bytes rest info, data = bytes ++ rest ∧ Coded bytes info := by
  by_cases hlen : data.length < 8
  · exact .inl hlen
  refine .inr ?_
  have hfixed : decodeFixed64 data = .ok (ofBytes (data.take 8).reverse) := by rw [decodeFixed64, if_neg hlen]
  have h8 : (data.take 8).length = 8 := List.length_take_of_le (not_lt.mp hlen)
  rcases getVarint32Ptr_cases (data.drop 8) with hnone | ⟨count, rest, hdrop, hcount⟩
  · refine .inl ?_
    rw [decodeEntry, hfixed]
    simp only [bind, Except.bind, getDifferentialVarInt32, hnone, pure, Except.pure]
  · have hread := readDifferences_cases (number count).toNat rest 0 []
    rcases hread with ⟨values, hvalues⟩ | ⟨deltas, rest, rfl, hdeltas, hsize⟩
    · refine .inl ?_
      rw [decodeEntry, hfixed]
      simp only [bind, Except.bind, getDifferentialVarInt32, hdrop, getVarint32Ptr_short hcount, hvalues, pure,
        Except.pure]
    · refine .inr ⟨_, rest, _, ?_, .entry h8 hcount hdeltas hsize.symm⟩
      rw [List.append_assoc, List.append_assoc, ← hdrop, List.take_append_drop]

theorem decodeEntry_shorter {data rest : Pointer} {info : PositionInfo}
    (h : decodeEntry data = .ok (some (rest, info))) : rest.length < data.length := by
  rcases decodeEntry_cases data with hshort | hnone | ⟨bytes, rest', info', rfl, hcoded⟩
  · exact absurd ((decodeEntry_outside hshort).symm.trans h) (by simp)
  · exact absurd (hnone.symm.trans h) (by simp)
  · have heq := (decodeEntry_coded hcoded rest').symm.trans h
    obtain ⟨rfl, rfl⟩ : rest' = rest ∧ info' = info := by simpa using heq
    obtain ⟨hdocId, hcount, hdeltas, hsize⟩ := hcoded
    simp only [List.length_append]
    omega

/-- The loop of `PositionCodec::decode`; every entry moves the pointer on. -/
def decodeLoop (data : Pointer) (vec : List PositionInfo) : Except Fault (List PositionInfo) :=
  if data = [] then .ok vec
  else
    match h : decodeEntry data with
    | .error fault => .error fault
    | .ok none => .ok []
    | .ok (some (data, info)) =>
      have := decodeEntry_shorter h
      decodeLoop data (vec ++ [info])
termination_by data.length

/-- `PositionCodec::decode`. -/
def decode (arr : QByteArray) : Except Fault (List PositionInfo) := decodeLoop arr []

/-! ## The round trip -/

theorem decodeLoop_coded {bytes : QByteArray} {info : PositionInfo} (h : Coded bytes info) (rest : QByteArray)
    (vec : List PositionInfo) : decodeLoop (bytes ++ rest) vec = decodeLoop rest (vec ++ [info]) := by
  have hentry := decodeEntry_coded h rest
  have hne : bytes ++ rest ≠ [] := fun hnil => by
    have hshorter := decodeEntry_shorter hentry
    simp [hnil] at hshorter
  rw [decodeLoop, if_neg hne]
  split
  · next herror => exact absurd (hentry.symm.trans herror) (by simp)
  · next hnone => exact absurd (hentry.symm.trans hnone) (by simp)
  · next data info' hsome =>
    have heq := hentry.symm.trans hsome
    obtain ⟨rfl, rfl⟩ : rest = data ∧ info = info' := by simpa using heq
    rfl

/-- Complete entries are read one after another. -/
theorem decodeLoop_parts {parts : List QByteArray} {list : List PositionInfo} (h : List.Forall₂ Coded parts list)
    (rest : QByteArray) (vec : List PositionInfo) :
    decodeLoop (parts.flatten ++ rest) vec = decodeLoop rest (vec ++ list) := by
  induction h generalizing vec with
  | nil => rw [List.flatten_nil, List.nil_append, List.append_nil]
  | cons hbytes _ ih =>
    rw [List.flatten_cons, List.append_assoc, decodeLoop_coded hbytes, ih, List.append_assoc,
      List.singleton_append]

/-- The differences that are written. -/
def differences (v : UInt32) : List UInt32 → List UInt32
  | [] => []
  | n :: values => (n - v) :: differences n values

theorem putDifferences_eq (v : UInt32) (values : List UInt32) :
    putDifferences v values = ((differences v values).map encodeVarint32Internal).flatten := by
  induction values generalizing v with
  | nil => rfl
  | cons n values ih => rw [putDifferences, ih, differences, List.map_cons, List.flatten_cons]

theorem length_differences (v : UInt32) (values : List UInt32) : (differences v values).length = values.length := by
  induction values generalizing v with
  | nil => rfl
  | cons n values ih => rw [differences, List.length_cons, ih, List.length_cons]

/-- Differences that wrap around are undone by sums that do. -/
theorem runningSums_differences (v : UInt32) (values : List UInt32) :
    runningSums v (differences v values) = values := by
  induction values generalizing v with
  | nil => rfl
  | cons n values ih =>
    have hback : n - v + v = n := UInt32.sub_add_cancel n v
    rw [differences, runningSums, hback, UInt32.add_comm, hback, ih]

theorem short_encodeVarint32Internal (v : UInt32) : Short (encodeVarint32Internal v) := by
  refine ⟨?_, length_encodeVarint32Internal_le v⟩
  rw [encodeVarint32Internal_eq]
  exact Varint.complete_encode v.toNat

theorem number_encodeVarint32Internal (v : UInt32) : number (encodeVarint32Internal v) = v := by
  rw [encodeVarint32Internal_eq, number, Varint.value_encode, UInt32.ofNat_toNat]

/-- The bytes of one entry. -/
def entry (info : PositionInfo) : QByteArray :=
  (toBytes 8 info.docId).reverse ++ differentialVarInt32 info.positions

theorem encode_eq (list : List PositionInfo) : encode list = (list.map entry).flatten := by
  have hloop : ∀ data : QByteArray, list.foldl (fun data pos =>
      putDifferentialVarInt32 (putFixed64 data pos.docId) pos.positions) data = data ++ (list.map entry).flatten := by
    induction list with
    | nil => exact fun data => by simp
    | cons pos list ih =>
      intro data
      rw [List.foldl_cons, ih, List.map_cons, List.flatten_cons, putDifferentialVarInt32, putFixed64, entry]
      simp only [List.append_assoc]
  rw [encode, hloop, List.nil_append]

theorem coded_entry {info : PositionInfo} (hdocId : info.docId < 2 ^ 64) (hlen : info.positions.length < 2 ^ 28) :
    Coded (entry info) info := by
  obtain ⟨docId, positions⟩ := info
  have hsize : (number (encodeVarint32Internal (UInt32.ofNat positions.length))).toNat =
      ((differences 0 positions).map encodeVarint32Internal).length := by
    rw [number_encodeVarint32Internal, UInt32.toNat_ofNat', Nat.mod_eq_of_lt (Nat.lt_trans hlen (by omega)),
      List.length_map, length_differences]
  have hcoded := @Coded.entry (toBytes 8 docId).reverse (encodeVarint32Internal (UInt32.ofNat positions.length))
    ((differences 0 positions).map encodeVarint32Internal) (by simp) (short_encodeVarint32Internal _)
    (List.forall_mem_map.mpr fun n _ => short_encodeVarint32Internal n) hsize
  have hnumbers : ((differences 0 positions).map encodeVarint32Internal).map number = differences 0 positions := by
    have hid : number ∘ encodeVarint32Internal = id := funext number_encodeVarint32Internal
    rw [List.map_map, hid, List.map_id]
  have hid : ofBytes (toBytes 8 docId) = docId := BigEndian.ofBytes_toBytes 8 hdocId
  rwa [← putDifferences_eq, List.reverse_reverse, hid, hnumbers, runningSums_differences] at hcoded

/-- **Positions are read back as they were written**, in their order. -/
theorem decode_encode {list : List PositionInfo}
    (h : ∀ info ∈ list, info.docId < 2 ^ 64 ∧ info.positions.length < 2 ^ 28) :
    decode (encode list) = .ok list := by
  have hcoded : List.Forall₂ Coded (list.map entry) list := by
    rw [List.forall₂_map_left_iff, List.forall₂_same]
    exact fun info hinfo => coded_entry (h info hinfo).1 (h info hinfo).2
  have hparts := decodeLoop_parts hcoded [] []
  rw [List.append_nil, List.nil_append] at hparts
  rw [decode, encode_eq, hparts, decodeLoop, if_pos rfl]

/-- Positions that go down, a difference that wraps around, an entry without positions. -/
theorem decode_encode_descending :
    decode (encode [{ docId := 2 ^ 64 - 1, positions := [300, 7, 4294967295, 0] }, { docId := 5 }]) =
      .ok [{ docId := 2 ^ 64 - 1, positions := [300, 7, 4294967295, 0] }, { docId := 5 }] :=
  decode_encode (by simp)

/-! ## Arbitrary arrays -/

/-- `list` is what consecutive bytes of the whole array say, in order. -/
def Accounts (arr : QByteArray) (list : List PositionInfo) : Prop :=
  ∃ parts : List QByteArray, arr = parts.flatten ∧ List.Forall₂ Coded parts list

/-- The array ends within the id of an entry, behind complete entries. -/
def EndsInDocId (arr : QByteArray) : Prop :=
  ∃ (parts : List QByteArray) (tail : QByteArray), arr = parts.flatten ++ tail ∧
    (∀ part ∈ parts, ∃ info, Coded part info) ∧ tail ≠ [] ∧ tail.length < 8

theorem EndsInDocId.cons {bytes rest : QByteArray} {info : PositionInfo} (hbytes : Coded bytes info)
    (h : EndsInDocId rest) : EndsInDocId (bytes ++ rest) := by
  obtain ⟨parts, tail, rfl, hparts, htail⟩ := h
  exact ⟨bytes :: parts, tail, by simp, List.forall_mem_cons.mpr ⟨⟨info, hbytes⟩, hparts⟩, htail⟩

theorem Accounts.cons {bytes rest : QByteArray} {info : PositionInfo} {list : List PositionInfo}
    (hbytes : Coded bytes info) (h : Accounts rest list) : Accounts (bytes ++ rest) (info :: list) := by
  obtain ⟨parts, rfl, hparts⟩ := h
  exact ⟨bytes :: parts, List.flatten_cons.symm, .cons hbytes hparts⟩

/-- The loop at an id that is not complete. -/
theorem decodeLoop_outside {data : Pointer} (hne : data ≠ []) (hshort : data.length < 8) (vec : List PositionInfo) :
    decodeLoop data vec = .error .outside := by
  have hentry := decodeEntry_outside hshort
  rw [decodeLoop, if_neg hne]
  split
  · next herror => simpa using herror.symm.trans hentry
  · next hnone => exact absurd (hentry.symm.trans hnone) (by simp)
  · next hsome => exact absurd (hentry.symm.trans hsome) (by simp)

/-- What the loop makes of the rest of the array. -/
theorem decodeLoop_cases (data : Pointer) (vec : List PositionInfo) :
    decodeLoop data vec = .error .outside ∧ EndsInDocId data ∨ decodeLoop data vec = .ok [] ∨
      ∃ list, decodeLoop data vec = .ok (vec ++ list) ∧ Accounts data list := by
  -- every entry leaves fewer bytes
  induction hlen : data.length using Nat.strong_induction_on generalizing data vec with
  | h n ih =>
    rcases eq_or_ne data [] with rfl | hne
    · refine .inr (.inr ⟨[], ?_, [], rfl, .nil⟩)
      rw [decodeLoop, if_pos rfl, List.append_nil]
    rcases decodeEntry_cases data with hshort | hnone | ⟨bytes, rest, info, rfl, hbytes⟩
    · exact .inl ⟨decodeLoop_outside hne hshort vec, [], data, rfl, by simp, hne, hshort⟩
    · refine .inr (.inl ?_)
      rw [decodeLoop, if_neg hne]
      split
      · next h => exact absurd (hnone.symm.trans h) (by simp)
      · rfl
      · next h => exact absurd (hnone.symm.trans h) (by simp)
    · have hrest := ih rest.length (hlen ▸ decodeEntry_shorter (decodeEntry_coded hbytes rest)) rest
        (vec ++ [info]) rfl
      rw [← decodeLoop_coded hbytes rest vec] at hrest
      refine hrest.imp (And.imp_right (·.cons hbytes)) (Or.imp_right ?_)
      rintro ⟨list, hlist, haccounts⟩
      exact ⟨info :: list, by simp [hlist], haccounts.cons hbytes⟩

theorem decode_endsInDocId {arr : QByteArray} (h : EndsInDocId arr) : decode arr = .error .outside := by
  obtain ⟨parts, tail, rfl, hparts, htail, hshort⟩ := h
  have hinfos : ∃ list, List.Forall₂ Coded parts list := by
    induction parts with
    | nil => exact ⟨[], .nil⟩
    | cons part parts ih =>
      obtain ⟨⟨info, hpart⟩, hparts⟩ := List.forall_mem_cons.mp hparts
      exact (ih hparts).imp' (info :: ·) fun list hlist => .cons hpart hlist
  obtain ⟨list, hlist⟩ := hinfos
  rw [decode, decodeLoop_parts hlist, decodeLoop_outside htail hshort]

/-- **Decoding reads nothing outside of the array**, and returns nothing or what the whole array says, for
exactly those arrays that do not end within the id of an entry. -/
theorem decode_safe_iff (arr : QByteArray) :
    (∃ list, decode arr = .ok list ∧ (list = [] ∨ Accounts arr list)) ↔ ¬EndsInDocId arr := by
  constructor
  · rintro ⟨list, hlist, _⟩ hends
    exact absurd ((decode_endsInDocId hends).symm.trans hlist) (by simp)
  · intro hends
    rcases decodeLoop_cases arr [] with ⟨_, h⟩ | hempty | ⟨list, hlist, haccounts⟩
    · exact absurd h hends
    · exact ⟨[], hempty, .inl rfl⟩
    · exact ⟨list, hlist, .inr haccounts⟩

/-- A value cut off three bytes into its second entry. -/
theorem decode_cut_off : ¬∃ list, decode [1, 0, 0, 0, 0, 0, 0, 0, 0, 2, 0, 0] = .ok list ∧
    (list = [] ∨ Accounts [1, 0, 0, 0, 0, 0, 0, 0, 0, 2, 0, 0] list) := by
  have hfirst : Coded (entry { docId := 1 }) { docId := 1 } := coded_entry (by norm_num) (by norm_num)
  have hends : EndsInDocId [1, 0, 0, 0, 0, 0, 0, 0, 0, 2, 0, 0] :=
    ⟨[entry { docId := 1 }], [2, 0, 0], by decide, by simpa using ⟨_, hfirst⟩, by simp, by simp⟩
  rintro ⟨list, hlist, _⟩
  exact absurd ((decode_endsInDocId hends).symm.trans hlist) (by simp)

end PositionCodec

end Baloo
