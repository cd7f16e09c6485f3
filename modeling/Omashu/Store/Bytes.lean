import Mathlib.Data.List.Basic
import Mathlib.Algebra.Order.Ring.Int
import Mathlib.Tactic.Common

/-!
# Byte strings and counters

Keys, prefixes and values are byte strings, as Go's `string` and `[]byte` are. A counter is stored as
a big-endian `uint64` (`utils/utils.go`): `uint64ToBytes` writes the eight bytes of a number modulo
`2^64`, and `bytesToUint64` reads the first eight bytes of a value. On a shorter value
`binary.BigEndian.Uint64` is out of range and panics, which the model records as `none`.
-/

namespace Omashu

/-- A byte string. -/
abbrev Bytes := List UInt8

/-- A key of the store. -/
abbrev Key := Bytes

/-- `Uint64ToBytes`: the eight bytes of `v % 2^64`, most significant first. -/
def uint64ToBytes (v : ℕ) : Bytes :=
  [UInt8.ofNat (v / 2^56), UInt8.ofNat (v / 2^48), UInt8.ofNat (v / 2^40), UInt8.ofNat (v / 2^32),
    UInt8.ofNat (v / 2^24), UInt8.ofNat (v / 2^16), UInt8.ofNat (v / 2^8), UInt8.ofNat v]

/-- `BytesToUint64`: the number in the first eight bytes, and `none` for the panic on a shorter
value. -/
def bytesToUint64 : Bytes → Option ℕ
  | b0 :: b1 :: b2 :: b3 :: b4 :: b5 :: b6 :: b7 :: _ =>
    some (b0.toNat * 2^56 + b1.toNat * 2^48 + b2.toNat * 2^40 + b3.toNat * 2^32 + b4.toNat * 2^24 +
      b5.toNat * 2^16 + b6.toNat * 2^8 + b7.toNat)
  | _ => none

/-- The byte above the low `k` bits of a number. -/
theorem mod_two_pow_add_eight (v k : ℕ) : v % 2^(k + 8) = v / 2^k % 2^8 * 2^k + v % 2^k := by
  rw [Nat.pow_add, Nat.mod_mul, Nat.mul_comm, Nat.add_comm]

/-- What is written as a counter is read back modulo `2^64`. -/
theorem bytesToUint64_uint64ToBytes (v : ℕ) : bytesToUint64 (uint64ToBytes v) = some (v % 2^64) := by
  simp only [uint64ToBytes, bytesToUint64, UInt8.toNat_ofNat', Option.some.injEq]
  have h64 : v % 2^64 = v / 2^56 % 2^8 * 2^56 + v % 2^56 := mod_two_pow_add_eight v 56
  have h56 : v % 2^56 = v / 2^48 % 2^8 * 2^48 + v % 2^48 := mod_two_pow_add_eight v 48
  have h48 : v % 2^48 = v / 2^40 % 2^8 * 2^40 + v % 2^40 := mod_two_pow_add_eight v 40
  have h40 : v % 2^40 = v / 2^32 % 2^8 * 2^32 + v % 2^32 := mod_two_pow_add_eight v 32
  have h32 : v % 2^32 = v / 2^24 % 2^8 * 2^24 + v % 2^24 := mod_two_pow_add_eight v 24
  have h24 : v % 2^24 = v / 2^16 % 2^8 * 2^16 + v % 2^16 := mod_two_pow_add_eight v 16
  have h16 : v % 2^16 = v / 2^8 % 2^8 * 2^8 + v % 2^8 := mod_two_pow_add_eight v 8
  rw [h64, h56, h48, h40, h32, h24, h16]
  simp only [Nat.add_assoc]

/-- A number read from a counter fits in 64 bits. -/
theorem bytesToUint64_lt {b : Bytes} {v : ℕ} (h : bytesToUint64 b = some v) : v < 2^64 := by
  unfold bytesToUint64 at h
  split at h
  · rename_i b0 b1 b2 b3 b4 b5 b6 b7 rest
    have h0 := b0.toNat_lt
    have h1 := b1.toNat_lt
    have h2 := b2.toNat_lt
    have h3 := b3.toNat_lt
    have h4 := b4.toNat_lt
    have h5 := b5.toNat_lt
    have h6 := b6.toNat_lt
    have h7 := b7.toNat_lt
    have := Option.some.inj h
    omega
  · exact absurd h (by simp)

/-- A continuation byte of UTF-8. -/
def isContinuation (b : UInt8) : Bool := 0x80 ≤ b && b ≤ 0xBF

/-- Whether a byte string is valid UTF-8, the check that `proto.Marshal` makes of a `string`
field. -/
def utf8Valid : Bytes → Bool
  | [] => true
  | b0 :: l =>
    if b0 < 0x80 then utf8Valid l
    else match l with
      | [] => false
      | b1 :: l =>
        if 0xC2 ≤ b0 && b0 ≤ 0xDF then isContinuation b1 && utf8Valid l
        else match l with
          | [] => false
          | b2 :: l =>
            if 0xE0 ≤ b0 && b0 ≤ 0xEF then
              isContinuation b1 && isContinuation b2 && (b0 != 0xE0 || 0xA0 ≤ b1) &&
                (b0 != 0xED || b1 ≤ 0x9F) && utf8Valid l
            else match l with
              | [] => false
              | b3 :: l =>
                0xF0 ≤ b0 && b0 ≤ 0xF4 && isContinuation b1 && isContinuation b2 &&
                  isContinuation b3 && (b0 != 0xF0 || 0x90 ≤ b1) && (b0 != 0xF4 || b1 ≤ 0x8F) &&
                  utf8Valid l

end Omashu
