import Mathlib.Data.List.DropRight

/-!
# `Vertz.Server.Auth.Totp`: Base32 of a TOTP secret

The shifts are those of 32-bit integers, so `value` is a `BitVec 32` and
loses its high bits. A text is its characters.
-/

namespace Vertz.Server.Auth

def BASE32_ALPHABET : List Char := "ABCDEFGHIJKLMNOPQRSTUVWXYZ234567".toList

/-- `BASE32_ALPHABET[i]`. -/
def alphabetAt (i : BitVec 32) : Char := BASE32_ALPHABET.getD i.toNat 'A'

/-- `while (bits >= 5)`: the characters it appends, and `bits` after it. -/
def emitChars (value : BitVec 32) : ℕ → List Char × ℕ
  | bits + 5 =>
    let (chars, left) := emitChars value bits
    (alphabetAt (value >>> bits &&& 0x1f) :: chars, left)
  | bits => ([], bits)

/-- The characters that the rest of the buffer appends. -/
def encodeLoop : List (BitVec 8) → ℕ → BitVec 32 → List Char
  | [], bits, value => if 0 < bits then [alphabetAt (value <<< (5 - bits) &&& 0x1f)] else []
  | byte :: buffer, bits, value =>
    let value := value <<< 8 ||| byte.setWidth 32
    let (chars, left) := emitChars value (bits + 8)
    chars ++ encodeLoop buffer left value

def base32Encode (buffer : List (BitVec 8)) : List Char := encodeLoop buffer 0 0

/-- The bytes that the rest of the text pushes; a character outside the
alphabet is passed over. -/
def decodeLoop : List Char → ℕ → BitVec 32 → List (BitVec 8)
  | [], _, _ => []
  | c :: str, bits, value =>
    match BASE32_ALPHABET.idxOf? c with
    | none => decodeLoop str bits value
    | some idx =>
      let value := value <<< 5 ||| BitVec.ofNat 32 idx
      let bits := bits + 5
      if 8 ≤ bits then
        (value >>> (bits - 8) &&& 0xff).setWidth 8 :: decodeLoop str (bits - 8) value
      else decodeLoop str bits value

def base32Decode (toUpperCase : List Char → List Char) (encoded : List Char) : List (BitVec 8) :=
  decodeLoop (toUpperCase (encoded.rdropWhile (· == '='))) 0 0

end Vertz.Server.Auth
