import ChunkRelay.Bytes

/-! CRC-32 over the reflected polynomial, one bit at a time. -/
namespace ChunkRelay
namespace Crc32

def polynomial : UInt32 := 0xedb88320

/-- Divides out the lowest bit. -/
@[inline] def shift (c : UInt32) : UInt32 :=
  if c &&& 1 = 1 then c >>> 1 ^^^ polynomial else c >>> 1

@[inline] def byte (c : UInt32) (x : UInt8) : UInt32 :=
  shift (shift (shift (shift (shift (shift (shift (shift (c ^^^ x.toUInt32))))))))

/-- The remainder after the bytes of `b`, from the remainder `c`. -/
def update (c : UInt32) (b : Bytes) : UInt32 := b.foldl byte c

def checksum (b : Bytes) : UInt32 := update 0xffffffff b ^^^ 0xffffffff

end Crc32
end ChunkRelay
