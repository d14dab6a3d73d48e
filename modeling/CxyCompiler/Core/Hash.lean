import Mathlib.Data.UInt
import Mathlib.Data.List.Basic

/-!
# The FNV-1a hash (`core/hash.c`)

`HashCode` is a 32-bit word; a hash is built by feeding bytes, wider integers (low part first) or
strings to a running state that starts at `hashInit`. Every function is the fold of `hashUint8`
over the bytes it feeds, in the order the source feeds them.
-/

namespace CxyCompiler.Core

/-- Source: `hash.h` `HashCode`. -/
abbrev HashCode := UInt32

/-- Source: `hash.c` `hashInit`. -/
def hashInit : HashCode := 0x811c9dc5

/-- Source: `hash.c` `hashUint8`. -/
@[irreducible] def hashUint8 (h : HashCode) (x : UInt8) : HashCode :=
  (h ^^^ x.toUInt32) * 0x01000193

/-- Source: `hash.c` `hashUint16`. -/
@[irreducible] def hashUint16 (h : HashCode) (x : UInt16) : HashCode :=
  hashUint8 (hashUint8 h x.toUInt8) (x >>> 8).toUInt8

/-- Source: `hash.c` `hashUint32`. -/
@[irreducible] def hashUint32 (h : HashCode) (x : UInt32) : HashCode :=
  hashUint16 (hashUint16 h x.toUInt16) (x >>> 16).toUInt16

/-- Source: `hash.c` `hashUint64`. -/
@[irreducible] def hashUint64 (h : HashCode) (x : UInt64) : HashCode :=
  hashUint32 (hashUint32 h x.toUInt32) (x >>> 32).toUInt32

/-- Source: `hash.c` `hashPtr`. -/
@[irreducible] def hashPtr (h : HashCode) (ptr : UInt64) : HashCode := hashUint64 h ptr

/-- A 128-bit value is fed as its low and its high word.
Source: `hash.c` `hashUint128`. -/
@[irreducible] def hashUint128 (h : HashCode) (x : BitVec 128) : HashCode :=
  hashUint64 (hashUint64 h (UInt64.ofBitVec (x.setWidth 64)))
    (UInt64.ofBitVec ((x >>> 64).setWidth 64))

/-- The bytes of a sized buffer.
Source: `hash.c` `hashRawBytes`. -/
def hashRawBytes (h : HashCode) (bytes : List UInt8) : HashCode := bytes.foldl hashUint8 h

/-- The bytes of a C string, up to its terminator.
Source: `hash.c` `hashStr`. -/
def hashStr (h : HashCode) (str : List UInt8) : HashCode :=
  hashRawBytes h (str.takeWhile (· ≠ 0))

end CxyCompiler.Core
