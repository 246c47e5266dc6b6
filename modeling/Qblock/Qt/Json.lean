import Qblock.Qt.Text
import Mathlib.Data.Rat.Defs
import Mathlib.Data.Int.ModEq
import Mathlib.Algebra.Order.Ring.Rat

/-!
# JSON values

`QJsonValue` and `QJsonObject` as the block types use them. The accessors
do not fail: one of the wrong kind answers a default, 0 or an empty string,
array or object, and a member that is not there reads as null. That silence
is part of the model, since it is what a writer and a reader that disagree
about a field run into.

A number is a rational: it covers both of Qt's representations, the 64-bit
integer and the finite double, and `toInt` and `toInteger` answer 0 for one
that is not whole or does not fit.
-/

namespace Qt

/-- A JSON value. Qt's `Undefined` answers every accessor as `null` does. -/
inductive QJsonValue where
  | null
  | bool (b : Bool)
  | number (x : ℚ)
  | string (s : String)
  | array (values : List QJsonValue)
  | object (members : List (String × QJsonValue))

/-- The members of an object, one a key. -/
abbrev QJsonObject := List (String × QJsonValue)

/-- `QJsonObject()`. -/
def QJsonObject.empty : QJsonObject := []

/-- `QJsonObject::insert`: a member of that key is replaced. -/
def QJsonObject.insert (key : String) (v : QJsonValue) : QJsonObject → QJsonObject
  | [] => [(key, v)]
  | (k, w) :: rest => if k = key then (key, v) :: rest else (k, w) :: insert key v rest

/-- `QJsonObject::operator[]`: the member of that key, or null. -/
def QJsonObject.member (key : String) : QJsonObject → QJsonValue
  | [] => .null
  | (k, w) :: rest => if k = key then w else member key rest

namespace QJsonValue

/-! ## Accessors -/

def toObject : QJsonValue → QJsonObject
  | .object members => members
  | _ => []

def toArray : QJsonValue → List QJsonValue
  | .array values => values
  | _ => []

def toString : QJsonValue → String
  | .string s => s
  | _ => ""

def toBool : QJsonValue → Bool
  | .bool b => b
  | _ => false

/-- A whole number of `bits` bits, signed; 0 for any other value. -/
def toSigned (bits : Nat) : QJsonValue → Int
  | .number x => if x.den = 1 ∧ -2 ^ (bits - 1) ≤ x.num ∧ x.num < 2 ^ (bits - 1) then x.num else 0
  | _ => 0

/-- `toInt`: the 32-bit accessor. -/
def toInt (v : QJsonValue) : Int := v.toSigned 32

/-- `toInteger`: the 64-bit accessor. -/
def toInteger (v : QJsonValue) : Int := v.toSigned 64

/-- The member of that key, of a value that should be an object. -/
def member (v : QJsonValue) (key : String) : QJsonValue := v.toObject.member key

/-- A number made of an integer. -/
def ofInt (i : Int) : QJsonValue := .number i

/-- A number in the range of a signed word is read as it is. -/
theorem toSigned_ofInt {bits : Nat} {i : Int} (low : -2 ^ (bits - 1) ≤ i)
    (high : i < 2 ^ (bits - 1)) : (ofInt i).toSigned bits = i := by
  simp only [ofInt, toSigned, Rat.den_intCast, Rat.num_intCast, low, high, and_self, if_true]

theorem toInt_ofInt {i : Int} (low : -2 ^ 31 ≤ i) (high : i < 2 ^ 31) : (ofInt i).toInt = i :=
  toSigned_ofInt low high

theorem toInteger_ofInt {i : Int} (low : -2 ^ 63 ≤ i) (high : i < 2 ^ 63) :
    (ofInt i).toInteger = i := toSigned_ofInt low high

@[simp] theorem toObject_object (o : QJsonObject) : toObject (.object o) = o := rfl
@[simp] theorem toArray_array (vs : List QJsonValue) : toArray (.array vs) = vs := rfl
@[simp] theorem toString_string (s : String) : toString (.string s) = s := rfl
@[simp] theorem toInt_string (s : String) : toInt (.string s) = 0 := rfl
@[simp] theorem toInteger_string (s : String) : toInteger (.string s) = 0 := rfl
@[simp] theorem toInt_null : toInt .null = 0 := rfl
@[simp] theorem toArray_null : toArray .null = [] := rfl
@[simp] theorem member_null (key : String) : member .null key = .null := rfl

@[simp] theorem member_object (o : QJsonObject) (key : String) :
    member (.object o) key = o.member key := rfl

end QJsonValue

/-! ## Members -/

namespace QJsonObject

@[simp] theorem member_empty (key : String) : empty.member key = .null := rfl

/-- An inserted member is read back, and no other is disturbed. -/
@[simp] theorem member_insert (o : QJsonObject) (key key' : String) (v : QJsonValue) :
    (insert key v o).member key' = if key = key' then v else o.member key' := by
  induction o with
  | nil => rfl
  | cons kw rest ih =>
    obtain ⟨k, w⟩ := kw
    by_cases hk : k = key
    · subst hk
      by_cases hk' : k = key' <;> simp [insert, member, hk']
    · by_cases hk' : k = key'
      · subst hk'
        simp [insert, member, hk, Ne.symm hk]
      · simp only [insert, member, hk, hk', if_false, ih]

end QJsonObject

/-! ## Narrowing casts

A C++ `(int)` of an unsigned 32-bit number keeps its bits and reads the top
one as a sign; assigning a signed number to an unsigned field wraps it. -/

/-- `(int)x` of an unsigned 32-bit number. -/
def castInt (x : UInt32) : Int :=
  if x.toNat < 2 ^ 31 then x.toNat else (x.toNat : Int) - 2 ^ 32

/-- The cast lands in the range of an `int`. -/
theorem castInt_bounds (x : UInt32) : -2 ^ 31 ≤ castInt x ∧ castInt x < 2 ^ 31 := by
  have hx := x.toNat_lt
  unfold castInt
  split <;> omega

/-- A signed cast and the wrap back to 32 bits are inverse. -/
theorem ofInt_castInt (x : UInt32) : UInt32.ofInt (castInt x) = x := by
  have hx := x.toNat_lt
  have wrapped : (castInt x % 2 ^ 32).toNat = x.toNat := by
    unfold castInt
    split <;> omega
  rw [UInt32.ofInt, wrapped, UInt32.ofNat_toNat]

/-- A number written through the signed cast reads back into 32 bits, by
the 64-bit accessor. -/
theorem ofInt_toInteger_castInt (x : UInt32) :
    UInt32.ofInt (QJsonValue.ofInt (castInt x)).toInteger = x := by
  have bounds := castInt_bounds x
  rw [QJsonValue.toInteger_ofInt (by omega) (by omega), ofInt_castInt]

/-- A 16-bit number reads back, by the 32-bit accessor. -/
theorem ofInt_toInt_uint16 (x : UInt16) :
    UInt16.ofInt (QJsonValue.ofInt x.toNat).toInt = x := by
  have hx := x.toNat_lt
  have wrapped : ((x.toNat : Int) % 2 ^ 16).toNat = x.toNat := by omega
  rw [QJsonValue.toInt_ofInt (by omega) (by omega), UInt16.ofInt, wrapped, UInt16.ofNat_toNat]

/-- An 8-bit number reads back, by the 32-bit accessor. -/
theorem ofInt_toInt_uint8 (x : UInt8) :
    UInt8.ofInt (QJsonValue.ofInt x.toNat).toInt = x := by
  have hx := x.toNat_lt
  have wrapped : ((x.toNat : Int) % 2 ^ 8).toNat = x.toNat := by omega
  rw [QJsonValue.toInt_ofInt (by omega) (by omega), UInt8.ofInt, wrapped, UInt8.ofNat_toNat]

/-! ## Nesting -/

mutual

/-- How deep arrays and objects nest in a value. -/
def QJsonValue.depth : QJsonValue → Nat
  | .array values => depthValues values + 1
  | .object members => depthMembers members + 1
  | _ => 0

def depthValues : List QJsonValue → Nat
  | [] => 0
  | v :: vs => max v.depth (depthValues vs)

def depthMembers : List (String × QJsonValue) → Nat
  | [] => 0
  | (_, v) :: rest => max v.depth (depthMembers rest)

end

theorem depth_null : QJsonValue.null.depth = 0 := by rw [QJsonValue.depth] <;> simp

/-- A member is not deeper than the members of its object. -/
theorem depth_member_le (key : String) : ∀ o : QJsonObject,
    (o.member key).depth ≤ depthMembers o
  | [] => Nat.le_refl 0
  | (k, w) :: rest => by
    have ih := depth_member_le key rest
    unfold QJsonObject.member depthMembers
    split
    · exact Nat.le_max_left _ _
    · exact Nat.le_trans ih (Nat.le_max_right _ _)

/-- A member nests less deep than its object, or is the null of an object
that has no such member. -/
theorem depth_member_lt {v : QJsonValue} {key : String} (h : v.member key ≠ .null) :
    (v.member key).depth < v.depth := by
  cases v with
  | object members =>
    have := depth_member_le key members
    simp only [QJsonValue.member_object, QJsonValue.depth]
    omega
  | _ => exact absurd rfl h

end Qt
