import Qblock.Wire.Scalar
import Mathlib.Data.List.DropRight

/-!
# Bytes and numbers as text

The text forms the JSON side of the block types goes through, as the Qt
string classes compute them: the hex spelling of a byte array
(`QByteArray::toHex`, `QByteArray::fromHex`, `QString::toLatin1`) and the
decimal spelling of an unsigned 64-bit number (`QString::number`,
`QString::toULongLong`).

`fromHex` is lenient: it works from the end, skips whatever is not a hex
digit, and takes a lone leading digit as a low half. Only the two inverse
laws, `fromHex_toHex` and `toULongLong_number`, are about text the library
itself writes.
-/

namespace Qt

open Wire (Bytes)

/-! ## Hex -/

/-- `QByteArray::toHex`: two lower-case digits a byte, high half first. -/
def toHex (bs : Bytes) : List Char :=
  bs.flatMap fun b => [Nat.digitChar (b.toNat / 16), Nat.digitChar (b.toNat % 16)]

/-- The value of a hex digit of either case. -/
def hexValue (c : Char) : Option Nat :=
  if '0' ≤ c ∧ c ≤ '9' then some (c.toNat - '0'.toNat)
  else if 'a' ≤ c ∧ c ≤ 'f' then some (c.toNat - 'a'.toNat + 10)
  else if 'A' ≤ c ∧ c ≤ 'F' then some (c.toNat - 'A'.toNat + 10)
  else none

/-- Digits, last one first, as bytes, last one first. -/
def pairDigits : List Nat → Bytes
  | [] => []
  | [low] => [UInt8.ofNat low]
  | low :: high :: rest => UInt8.ofNat (low + 16 * high) :: pairDigits rest

/-- `QByteArray::fromHex`: digits are paired from the end, and a character
that is not a hex digit is skipped. -/
def fromHex (text : List Char) : Bytes :=
  (pairDigits (text.filterMap hexValue).reverse).reverse

/-- `QString::toLatin1`: a character outside Latin-1 becomes `?`, once for
each of its UTF-16 units. -/
def toLatin1 (s : String) : List Char :=
  s.toList.flatMap fun c =>
    if c.toNat < 256 then [c] else if c.toNat < 65536 then ['?'] else ['?', '?']

/-- The digits that are written are read. -/
theorem hexValue_digitChar : ∀ n < 16, hexValue (Nat.digitChar n) = some n := by decide

/-- Each byte is two digits, the high one first. -/
theorem hexValue_toHex (bs : Bytes) :
    (toHex bs).filterMap hexValue = bs.flatMap fun b => [b.toNat / 16, b.toNat % 16] := by
  induction bs with
  | nil => rfl
  | cons b bs ih =>
    have hb := b.toNat_lt
    have high := hexValue_digitChar (b.toNat / 16) (by omega)
    have low := hexValue_digitChar (b.toNat % 16) (by omega)
    simp only [toHex, List.flatMap_cons, List.filterMap_append] at ih ⊢
    rw [ih]
    simp [high, low]

/-- Digits are paired from the end, where the low half of a byte stands. -/
theorem pairDigits_halves (bs : Bytes) :
    pairDigits (bs.flatMap fun b => [b.toNat % 16, b.toNat / 16]) = bs := by
  induction bs with
  | nil => rfl
  | cons b bs ih =>
    have whole : b.toNat % 16 + 16 * (b.toNat / 16) = b.toNat := by omega
    simp only [List.flatMap_cons, List.cons_append, List.nil_append, pairDigits, whole, ih,
      UInt8.ofNat_toNat]

/-- The hex spelling of a byte array reads back. -/
theorem fromHex_toHex (bs : Bytes) : fromHex (toHex bs) = bs := by
  have turned : (bs.flatMap fun b => [b.toNat / 16, b.toNat % 16]).reverse =
      bs.reverse.flatMap fun b => [b.toNat % 16, b.toNat / 16] := by
    rw [List.reverse_flatMap]
    rfl
  rw [fromHex, hexValue_toHex, turned, pairDigits_halves, List.reverse_reverse]

/-- The hex spelling is Latin-1, so it is its own Latin-1 form. -/
theorem toLatin1_ofList {cs : List Char} (h : ∀ c ∈ cs, c.toNat < 256) :
    toLatin1 (String.ofList cs) = cs := by
  rw [toLatin1, String.toList_ofList]
  induction cs with
  | nil => rfl
  | cons c cs ih =>
    rw [List.flatMap_cons, if_pos (h c List.mem_cons_self), List.singleton_append,
      ih fun d hd => h d (List.mem_cons_of_mem _ hd)]

theorem digitChar_latin1 : ∀ n < 16, (Nat.digitChar n).toNat < 256 := by decide

/-- Hex text has no character that `toLatin1` replaces. -/
theorem toHex_latin1 (bs : Bytes) : ∀ c ∈ toHex bs, c.toNat < 256 := by
  intro c hc
  obtain ⟨b, -, hb⟩ := List.mem_flatMap.mp hc
  have hlt := b.toNat_lt
  rcases List.mem_cons.mp hb with rfl | hb
  · exact digitChar_latin1 _ (by omega)
  · rcases List.mem_singleton.mp hb with rfl
    exact digitChar_latin1 _ (by omega)

/-! ## Decimal -/

/-- `QString::number` of an unsigned 64-bit number, base ten. -/
def number (n : UInt64) : String := String.ofList (Nat.toDigits 10 n.toNat)

/-- `QChar::isSpace`. -/
def isSpace (c : Char) : Bool :=
  let code := c.toNat
  code = 0x20 ∨ (0x09 ≤ code ∧ code ≤ 0x0d) ∨ (0x2000 ≤ code ∧ code ≤ 0x200a) ∨
    code ∈ [0x85, 0xa0, 0x1680, 0x2028, 0x2029, 0x202f, 0x205f, 0x3000]

/-- `QString::trimmed`. -/
def trimmed (cs : List Char) : List Char := (cs.dropWhile isSpace).rdropWhile isSpace

/-- A leading plus sign is dropped. -/
def dropPlus : List Char → List Char
  | '+' :: cs => cs
  | cs => cs

/-- `QString::toULongLong`: between spaces, one plus sign that may be there
and decimal digits, of a value that fits 64 bits; 0 for anything else. -/
def toULongLong (s : String) : UInt64 :=
  let digits := dropPlus (trimmed s.toList)
  let value := Nat.ofDigitChars 10 digits 0
  if digits ≠ [] ∧ digits.all Char.isDigit ∧ value < 2 ^ 64 then UInt64.ofNat value else 0

/-- A digit is not a sign. -/
theorem dropPlus_of_isDigit {c : Char} (cs : List Char) (h : c.isDigit) :
    dropPlus (c :: cs) = c :: cs := by
  unfold dropPlus
  split
  · next heq =>
    obtain ⟨rfl, -⟩ := List.cons.inj heq
    exact absurd h (by decide)
  · rfl

/-- A digit is not a space. -/
theorem isSpace_of_isDigit {c : Char} (h : c.isDigit) : isSpace c = false := by
  obtain ⟨low, high⟩ : 48 ≤ c.toNat ∧ c.toNat ≤ 57 := by
    simpa [Char.isDigit, UInt32.le_iff_toNat_le] using h
  simp only [isSpace, List.mem_cons, List.not_mem_nil, or_false, decide_eq_false_iff_not]
  omega

/-- A text without spaces is left as it is. -/
theorem trimmed_eq_self {cs : List Char} (h : ∀ c ∈ cs, isSpace c = false) : trimmed cs = cs := by
  have front : cs.dropWhile isSpace = cs := by
    rw [List.dropWhile_eq_self_iff]
    intro hl
    rw [h _ (List.getElem_mem hl)]
    exact Bool.false_ne_true
  rw [trimmed, front, List.rdropWhile_eq_self_iff]
  intro hne
  rw [h _ (List.getLast_mem hne)]
  exact Bool.false_ne_true

/-- The decimal spelling of an unsigned 64-bit number reads back. -/
theorem toULongLong_number (n : UInt64) : toULongLong (number n) = n := by
  have digits : ∀ c ∈ Nat.toDigits 10 n.toNat, c.isDigit := fun c hc =>
    Nat.isDigit_of_mem_toDigits (by decide) (by decide) hc
  have plain : dropPlus (trimmed (Nat.toDigits 10 n.toNat)) = Nat.toDigits 10 n.toNat := by
    rw [trimmed_eq_self fun c hc => isSpace_of_isDigit (digits c hc)]
    cases hd : Nat.toDigits 10 n.toNat with
    | nil => exact absurd hd Nat.toDigits_ne_nil
    | cons c cs => exact dropPlus_of_isDigit cs (digits c (by rw [hd]; exact List.mem_cons_self))
  have fits : n.toNat < 2 ^ 64 := n.toNat_lt
  have all : (Nat.toDigits 10 n.toNat).all Char.isDigit = true :=
    List.all_eq_true.mpr digits
  simp only [toULongLong, number, String.toList_ofList, plain, Nat.ofDigitChars_ten_toDigits]
  rw [if_pos ⟨Nat.toDigits_ne_nil, all, fits⟩, UInt64.ofNat_toNat]

end Qt
