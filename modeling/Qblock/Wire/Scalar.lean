import Mathlib.Data.Nat.Basic
import Mathlib.Tactic.Ring

/-!
# Little-endian scalars

The fixed-width unsigned integers of a byte stream. `toLE` writes the low
`n` bytes of a natural, least significant first, and `ofLE` reads a byte
string back; between them they carry both directions, `ofLE_toLE` (a
written number reads back modulo the width, which is what a narrowing cast
does) and `toLE_ofLE` (a read byte string is the writing of its value).

`Scalar` names what a stream needs of a machine integer: its width in
bytes, its value, and the cast from a natural that wraps at the width. The
four machine words are its instances.
-/

namespace Wire

/-- A byte string, as a list: the carrier every codec proof inducts on. -/
abbrev Bytes := List UInt8

/-! ## Numbers as bytes -/

/-- The low `n` bytes of a number, least significant first. -/
def toLE : Nat → Nat → Bytes
  | 0, _ => []
  | n + 1, v => UInt8.ofNat v :: toLE n (v / 256)

/-- The number a byte string spells, least significant byte first. -/
def ofLE : Bytes → Nat
  | [] => 0
  | b :: bs => b.toNat + 256 * ofLE bs

/-- A word has its width in bytes, whatever its value. -/
@[simp] theorem toLE_length : ∀ n v, (toLE n v).length = n
  | 0, _ => rfl
  | n + 1, v => by simp only [toLE, List.length_cons, toLE_length n]

/-- What bytes spell is bounded by their number. -/
theorem ofLE_lt : ∀ bs : Bytes, ofLE bs < 256 ^ bs.length
  | [] => by simp [ofLE]
  | b :: bs => by
    have hb := b.toNat_lt
    have ih := ofLE_lt bs
    simp only [ofLE, List.length_cons, pow_succ]
    omega

/-- A written number reads back as its value modulo the width. -/
theorem ofLE_toLE : ∀ n v, ofLE (toLE n v) = v % 256 ^ n
  | 0, v => by simp [toLE, ofLE, Nat.mod_one]
  | n + 1, v => by
    have split : v % 256 ^ (n + 1) = v % 256 + 256 * (v / 256 % 256 ^ n) := by
      rw [Nat.pow_succ, Nat.mul_comm (256 ^ n) 256, Nat.mod_mul]
    rw [toLE, ofLE, ofLE_toLE n, UInt8.toNat_ofNat', split]

/-- A byte string is the writing of the number it spells. -/
theorem toLE_ofLE : ∀ bs : Bytes, toLE bs.length (ofLE bs) = bs
  | [] => rfl
  | b :: bs => by
    have hb := b.toNat_lt
    have low : UInt8.ofNat (b.toNat + 256 * ofLE bs) = b := by
      apply UInt8.toNat_inj.mp
      rw [UInt8.toNat_ofNat']
      omega
    have high : (b.toNat + 256 * ofLE bs) / 256 = ofLE bs := by omega
    rw [List.length_cons, ofLE, toLE, low, high, toLE_ofLE bs]

/-! ## Machine words -/

/-- A machine word of `width` bytes. `ofNat` is the narrowing cast: it keeps
the value modulo `256 ^ width`. -/
class Scalar (σ : Type) where
  width : Nat
  toNat : σ → Nat
  ofNat : Nat → σ
  toNat_ofNat : ∀ n, toNat (ofNat n) = n % 256 ^ width
  ofNat_toNat : ∀ x, ofNat (toNat x) = x

namespace Scalar

variable {σ : Type} [Scalar σ]

theorem toNat_lt (x : σ) : toNat x < 256 ^ width σ := by
  have h : toNat (ofNat (toNat x) : σ) = toNat x % 256 ^ width σ := toNat_ofNat (toNat x)
  rw [ofNat_toNat] at h
  rw [h]
  exact Nat.mod_lt _ (Nat.pow_pos (by decide))

/-- A number that fits a word is kept in it. -/
theorem toNat_ofNat_of_lt {n : Nat} (h : n < 256 ^ width σ) : toNat (ofNat n : σ) = n := by
  rw [toNat_ofNat, Nat.mod_eq_of_lt h]

/-- The bytes a word is written as. -/
def put (x : σ) : Bytes := toLE (width σ) (toNat x)

@[simp] theorem put_length (x : σ) : (put x).length = width σ := toLE_length _ _

/-- A word is told from its bytes. -/
theorem ofNat_ofLE_put (x : σ) : (ofNat (ofLE (put x)) : σ) = x := by
  rw [put, ofLE_toLE, Nat.mod_eq_of_lt (toNat_lt x), ofNat_toNat]

/-- A byte string of the width is the writing of the word it spells. -/
theorem put_ofNat_ofLE {bs : Bytes} (h : bs.length = width σ) :
    put (ofNat (ofLE bs) : σ) = bs := by
  have hlt : ofLE bs < 256 ^ width σ := h ▸ ofLE_lt bs
  rw [put, toNat_ofNat_of_lt hlt, ← h, toLE_ofLE]

theorem put_injective : Function.Injective (put : σ → Bytes) := by
  intro x y h
  rw [← ofNat_ofLE_put x, h, ofNat_ofLE_put]

end Scalar

instance : Scalar UInt8 where
  width := 1
  toNat := UInt8.toNat
  ofNat := UInt8.ofNat
  toNat_ofNat _ := UInt8.toNat_ofNat'
  ofNat_toNat _ := UInt8.ofNat_toNat

instance : Scalar UInt16 where
  width := 2
  toNat := UInt16.toNat
  ofNat := UInt16.ofNat
  toNat_ofNat _ := UInt16.toNat_ofNat'
  ofNat_toNat _ := UInt16.ofNat_toNat

instance : Scalar UInt32 where
  width := 4
  toNat := UInt32.toNat
  ofNat := UInt32.ofNat
  toNat_ofNat _ := UInt32.toNat_ofNat'
  ofNat_toNat _ := UInt32.ofNat_toNat

instance : Scalar UInt64 where
  width := 8
  toNat := UInt64.toNat
  ofNat := UInt64.ofNat
  toNat_ofNat _ := UInt64.toNat_ofNat'
  ofNat_toNat _ := UInt64.ofNat_toNat

example : Scalar.put (28110 : UInt64) = [0xce, 0x6d, 0, 0, 0, 0, 0, 0] := by decide

end Wire
