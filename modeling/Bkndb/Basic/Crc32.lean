import Bkndb.Basic.Bytes

/-!
# CRC-32

The checksum of ISO-HDLC: reflected polynomial `0xEDB88320`, all ones before and after. It is
computed bit by bit.

A table-driven implementation computes the same function; the table holds the values of `byteStep`
on single bytes. Nothing is proved about which changes the checksum detects. Where a proof needs
that a torn or damaged part does not pass by accident, it takes that as a hypothesis about the
bytes at hand.
-/

namespace Crc32

/-- Shift one bit out. -/
def bitStep (c : UInt32) : UInt32 :=
  if c &&& 1 = 1 then (c >>> 1) ^^^ 0xEDB88320 else c >>> 1

/-- Feed one byte. -/
def byteStep (c : UInt32) (b : UInt8) : UInt32 := bitStep^[8] (c ^^^ b.toUInt32)

end Crc32

/-- The CRC-32 of a byte string. -/
def crc32 (b : Bytes) : ℕ := (b.foldl Crc32.byteStep 0xFFFFFFFF ^^^ 0xFFFFFFFF).toNat

example : crc32 "123456789".toUTF8.toList = 0xCBF43926 := by decide +kernel

theorem crc32_lt (b : Bytes) : crc32 b < 256 ^ 4 := UInt32.toNat_lt _
