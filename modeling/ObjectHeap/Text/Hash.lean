/-!
# The hash of a text

32-bit FNV-1a over the UTF-8 bytes: every byte is first mixed into the low end of the hash and the
hash is then multiplied by a fixed prime, modulo 2^32. A symbol carries the hash of its text, and a
table starts its search at the bucket that the hash names.
-/

set_option autoImplicit false

namespace ObjectHeap.Text

/-- The hash of the empty text. -/
def offsetBasis : UInt32 := 2166136261

/-- The multiplier of every step. -/
def hashPrime : UInt32 := 16777619

/-- The hash after one more byte. -/
def hashByte (hash : UInt32) (byte : UInt8) : UInt32 :=
  (hash ^^^ byte.toUInt32) * hashPrime

/-- The FNV-1a hash of the UTF-8 bytes of a text. -/
def hash (text : String) : UInt32 :=
  text.toUTF8.data.foldl hashByte offsetBasis

end ObjectHeap.Text
