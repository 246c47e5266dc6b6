import Qblock.Wire.Reader
import Qblock.Qt.Text

/-!
# What the library is built on

Everything the block types call that is not in their repository, beyond the
Qt container, stream and JSON classes: the 256-bit integers of the QtbigInt
library, the Blake2b-256 of Qt's cryptographic hash, and the contents of
fresh memory, which `QByteArray::resize` exposes.

`Platform` is what they compute and `LawfulPlatform` is what the block
types rely on of it. `Platform.plain` is one platform that obeys the laws.
-/

namespace Qblock

open Wire

/-- What can go wrong in a way the library does not report. -/
inductive Fault where
  /-- A null shared pointer was dereferenced. -/
  | nullPointer
  /-- The bound on nested decoders was reached. No run of a decoder from its
  entry point does. -/
  | recursionLimit
  deriving DecidableEq, Repr

/-- `quint256`, an unsigned 256-bit integer. -/
abbrev Quint256 := BitVec 256

/-- The functions taken from outside the repository. -/
class Platform where
  /-- The bytes `operator<<` writes for a `quint256`. -/
  quint256Bytes : Quint256 → Bytes
  /-- The number `operator>>` makes of the bytes it read. -/
  quint256OfBytes : Bytes → Quint256
  /-- `quint256::toHex`. -/
  quint256ToHex : Quint256 → String
  /-- The `quint256` constructor from a string. -/
  quint256OfString : String → Quint256
  /-- `QCryptographicHash::Blake2b_256`. -/
  blake2b256 : Bytes → Bytes
  /-- What `n` bytes of fresh memory hold. -/
  uninitialized : Nat → Bytes

open Platform

/-- What the library relies on: a `quint256` is written and read back as 32
bytes and as a hex string, and `n` bytes of fresh memory are `n` bytes. -/
class LawfulPlatform [Platform] : Prop where
  quint256Bytes_length : ∀ q, (quint256Bytes q).length = 32
  quint256OfBytes_bytes : ∀ q, quint256OfBytes (quint256Bytes q) = q
  quint256Bytes_ofBytes : ∀ b, b.length = 32 → quint256Bytes (quint256OfBytes b) = b
  quint256OfString_toHex : ∀ q, quint256OfString (quint256ToHex q) = q
  uninitialized_length : ∀ n, (uninitialized n).length = n

/-! ## A platform -/

/-- A number in hex digits behind `0x`, read back digit by digit. -/
def hexNumber (n : Nat) : String := String.ofList ('0' :: 'x' :: Nat.toDigits 16 n)

def ofHexDigits (text : List Char) : Nat :=
  text.foldl (fun n c => 16 * n + (Qt.hexValue c).getD 0) 0

/-- A number is read back from its hex digits. -/
theorem ofHexDigits_toDigits (n : Nat) : ofHexDigits (Nat.toDigits 16 n) = n := by
  induction n using Nat.base_induction 16 (by decide) with
  | single m hm =>
    rw [Nat.toDigits_of_lt_base hm]
    simp [ofHexDigits, Qt.hexValue_digitChar m hm]
  | digit m k hk hm ih =>
    rw [← Nat.toDigits_append_toDigits (by decide) hm hk, Nat.toDigits_of_lt_base hk]
    simp only [ofHexDigits, List.foldl_append] at ih ⊢
    simp [ih, Qt.hexValue_digitChar k hk]

/-- Little-endian 256-bit integers with hex text, a hash that copies the
front of its input, and zeroed memory. -/
@[reducible] def Platform.plain : Platform where
  quint256Bytes q := toLE 32 q.toNat
  quint256OfBytes b := BitVec.ofNat 256 (ofLE b)
  quint256ToHex q := hexNumber q.toNat
  quint256OfString s := BitVec.ofNat 256 (ofHexDigits (s.toList.drop 2))
  blake2b256 b := (b ++ List.replicate 32 1).take 32
  uninitialized n := List.replicate n 0

theorem two_pow_256 : 2 ^ 256 = 256 ^ 32 := Nat.pow_mul 2 8 32

/-- The plain platform is one. -/
theorem Platform.plain_lawful : @LawfulPlatform Platform.plain := by
  let platform := Platform.plain
  exact {
    quint256Bytes_length := fun q => toLE_length 32 q.toNat
    quint256OfBytes_bytes := fun q => by
      have hq : q.toNat < 256 ^ 32 := two_pow_256 ▸ q.isLt
      show BitVec.ofNat 256 (ofLE (toLE 32 q.toNat)) = q
      rw [ofLE_toLE, Nat.mod_eq_of_lt hq, BitVec.ofNat_toNat, BitVec.setWidth_eq]
    quint256Bytes_ofBytes := fun b hb => by
      have hlt : ofLE b < 2 ^ 256 := by
        have h := ofLE_lt b
        rwa [hb, ← two_pow_256] at h
      show toLE 32 (BitVec.ofNat 256 (ofLE b)).toNat = b
      rw [BitVec.toNat_ofNat, Nat.mod_eq_of_lt hlt, ← hb, toLE_ofLE]
    quint256OfString_toHex := fun q => by
      show BitVec.ofNat 256 (ofHexDigits ((hexNumber q.toNat).toList.drop 2)) = q
      rw [hexNumber, String.toList_ofList]
      show BitVec.ofNat 256 (ofHexDigits (Nat.toDigits 16 q.toNat)) = q
      rw [ofHexDigits_toDigits, BitVec.ofNat_toNat, BitVec.setWidth_eq]
    uninitialized_length := fun n => List.length_replicate }

/-- That platform with another hash, on which no law depends. -/
@[reducible] def Platform.plainWith (hash : Bytes → Bytes) : Platform :=
  { Platform.plain with blake2b256 := hash }

/-- So is it with any other hash. -/
theorem Platform.plainWith_lawful (hash : Bytes → Bytes) :
    @LawfulPlatform (Platform.plainWith hash) := by
  obtain ⟨length, ofBytes, bytes, ofString, fresh⟩ := Platform.plain_lawful
  exact @LawfulPlatform.mk (Platform.plainWith hash) length ofBytes bytes ofString fresh

namespace Plain

scoped instance platform : Platform := Platform.plain

scoped instance lawful : LawfulPlatform := Platform.plain_lawful

end Plain

end Qblock
