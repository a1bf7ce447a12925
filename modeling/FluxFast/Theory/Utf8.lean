import Mathlib

/-!
# Utf8 — strict UTF-8

The bytes of characters, and the decoder that refuses every malformed sequence.
-/

namespace FluxFast.Theory

namespace Utf8

def encode (cs : List Char) : List UInt8 := cs.flatMap String.utf8EncodeChar

def decode (bytes : List UInt8) : Option (List Char) :=
  (bytes.toByteArray.utf8Decode?).map Array.toList

theorem decode_encode (cs : List Char) : decode (encode cs) = some cs := by
  have hdecoded : cs.utf8Encode.utf8Decode? = some cs.toArray := List.utf8Decode?_utf8Encode
  show (cs.utf8Encode.utf8Decode?).map Array.toList = _
  rw [hdecoded]
  rfl

theorem encode_append (cs ds : List Char) : encode (cs ++ ds) = encode cs ++ encode ds :=
  List.flatMap_append

theorem encodeChar_ascii {c : Char} (h : c.toNat < 0x80) :
    String.utf8EncodeChar c = [UInt8.ofNat c.toNat] := by
  have hval : c.val ≤ 0x7f := UInt32.le_iff_toNat_le.mpr (Nat.lt_succ_iff (n := 0x7f).mp h)
  have hsize : c.utf8Size = 1 := if_pos hval
  rw [String.utf8EncodeChar_eq_singleton hsize]
  exact congrArg (fun b => [b]) (UInt8.ofNat_uInt32ToNat c.val).symm

theorem length_encode (cs : List Char) : (encode cs).length = (cs.map Char.utf8Size).sum := by
  induction cs with
  | nil => rfl
  | cons c cs ih =>
    rw [encode, List.flatMap_cons, List.length_append, List.map_cons, List.sum_cons,
      String.length_utf8EncodeChar]
    exact congrArg _ ih

end Utf8

end FluxFast.Theory
