import OktoGrafx.Lib.ByteCodec

/-! CRC-32C over bytes, reflected, one byte at a time. -/

namespace Grafx

abbrev Byte := Fin 256

abbrev Bytes := List Byte

def crc32cPolynomialReflected : UInt32 := 0x82F63B78

def crc32cReduce : ℕ → UInt32 → UInt32
  | 0, value => value
  | n + 1, value => crc32cReduce n ((value >>> 1) ^^^ if value &&& 1 = 0 then 0 else crc32cPolynomialReflected)

def crc32cTable (index : UInt32) : UInt32 := crc32cReduce 8 index

def crc32c (data : Bytes) : UInt32 :=
  (data.foldl (fun value byte => crc32cTable ((value ^^^ UInt32.ofNat byte.val) &&& 0xFF) ^^^ (value >>> 8)) 0xFFFFFFFF) ^^^ 0xFFFFFFFF

-- The published answer for "123456789".
example : crc32c [0x31, 0x32, 0x33, 0x34, 0x35, 0x36, 0x37, 0x38, 0x39] = 0xE3069283 := by decide +kernel

end Grafx
