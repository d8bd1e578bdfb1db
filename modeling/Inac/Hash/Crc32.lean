import Inac.Lib.Crc

/-!
# `ina_hash_crc32` (`src/hash.c`)

The function takes a byte in at a time, with a table of 256 constants for what the eight bits that
are shifted out add to the register. It is the reflected CRC-32 bit by bit, with the register and
the result complemented, so a hash of two blocks can be made of the first block's hash
(`crc32_bitwise_and_chains`).
-/

namespace Inac
namespace Hash

open Lib

/-- The generator of CRC-32, reflected. -/
def crc32Poly : BitVec 32 := 0xEDB88320#32

def crc32Tab : List (BitVec 32) :=
  [0x00000000#32, 0x77073096#32, 0xee0e612c#32, 0x990951ba#32, 0x076dc419#32, 0x706af48f#32,
   0xe963a535#32, 0x9e6495a3#32, 0x0edb8832#32, 0x79dcb8a4#32, 0xe0d5e91e#32, 0x97d2d988#32,
   0x09b64c2b#32, 0x7eb17cbd#32, 0xe7b82d07#32, 0x90bf1d91#32, 0x1db71064#32, 0x6ab020f2#32,
   0xf3b97148#32, 0x84be41de#32, 0x1adad47d#32, 0x6ddde4eb#32, 0xf4d4b551#32, 0x83d385c7#32,
   0x136c9856#32, 0x646ba8c0#32, 0xfd62f97a#32, 0x8a65c9ec#32, 0x14015c4f#32, 0x63066cd9#32,
   0xfa0f3d63#32, 0x8d080df5#32, 0x3b6e20c8#32, 0x4c69105e#32, 0xd56041e4#32, 0xa2677172#32,
   0x3c03e4d1#32, 0x4b04d447#32, 0xd20d85fd#32, 0xa50ab56b#32, 0x35b5a8fa#32, 0x42b2986c#32,
   0xdbbbc9d6#32, 0xacbcf940#32, 0x32d86ce3#32, 0x45df5c75#32, 0xdcd60dcf#32, 0xabd13d59#32,
   0x26d930ac#32, 0x51de003a#32, 0xc8d75180#32, 0xbfd06116#32, 0x21b4f4b5#32, 0x56b3c423#32,
   0xcfba9599#32, 0xb8bda50f#32, 0x2802b89e#32, 0x5f058808#32, 0xc60cd9b2#32, 0xb10be924#32,
   0x2f6f7c87#32, 0x58684c11#32, 0xc1611dab#32, 0xb6662d3d#32, 0x76dc4190#32, 0x01db7106#32,
   0x98d220bc#32, 0xefd5102a#32, 0x71b18589#32, 0x06b6b51f#32, 0x9fbfe4a5#32, 0xe8b8d433#32,
   0x7807c9a2#32, 0x0f00f934#32, 0x9609a88e#32, 0xe10e9818#32, 0x7f6a0dbb#32, 0x086d3d2d#32,
   0x91646c97#32, 0xe6635c01#32, 0x6b6b51f4#32, 0x1c6c6162#32, 0x856530d8#32, 0xf262004e#32,
   0x6c0695ed#32, 0x1b01a57b#32, 0x8208f4c1#32, 0xf50fc457#32, 0x65b0d9c6#32, 0x12b7e950#32,
   0x8bbeb8ea#32, 0xfcb9887c#32, 0x62dd1ddf#32, 0x15da2d49#32, 0x8cd37cf3#32, 0xfbd44c65#32,
   0x4db26158#32, 0x3ab551ce#32, 0xa3bc0074#32, 0xd4bb30e2#32, 0x4adfa541#32, 0x3dd895d7#32,
   0xa4d1c46d#32, 0xd3d6f4fb#32, 0x4369e96a#32, 0x346ed9fc#32, 0xad678846#32, 0xda60b8d0#32,
   0x44042d73#32, 0x33031de5#32, 0xaa0a4c5f#32, 0xdd0d7cc9#32, 0x5005713c#32, 0x270241aa#32,
   0xbe0b1010#32, 0xc90c2086#32, 0x5768b525#32, 0x206f85b3#32, 0xb966d409#32, 0xce61e49f#32,
   0x5edef90e#32, 0x29d9c998#32, 0xb0d09822#32, 0xc7d7a8b4#32, 0x59b33d17#32, 0x2eb40d81#32,
   0xb7bd5c3b#32, 0xc0ba6cad#32, 0xedb88320#32, 0x9abfb3b6#32, 0x03b6e20c#32, 0x74b1d29a#32,
   0xead54739#32, 0x9dd277af#32, 0x04db2615#32, 0x73dc1683#32, 0xe3630b12#32, 0x94643b84#32,
   0x0d6d6a3e#32, 0x7a6a5aa8#32, 0xe40ecf0b#32, 0x9309ff9d#32, 0x0a00ae27#32, 0x7d079eb1#32,
   0xf00f9344#32, 0x8708a3d2#32, 0x1e01f268#32, 0x6906c2fe#32, 0xf762575d#32, 0x806567cb#32,
   0x196c3671#32, 0x6e6b06e7#32, 0xfed41b76#32, 0x89d32be0#32, 0x10da7a5a#32, 0x67dd4acc#32,
   0xf9b9df6f#32, 0x8ebeeff9#32, 0x17b7be43#32, 0x60b08ed5#32, 0xd6d6a3e8#32, 0xa1d1937e#32,
   0x38d8c2c4#32, 0x4fdff252#32, 0xd1bb67f1#32, 0xa6bc5767#32, 0x3fb506dd#32, 0x48b2364b#32,
   0xd80d2bda#32, 0xaf0a1b4c#32, 0x36034af6#32, 0x41047a60#32, 0xdf60efc3#32, 0xa867df55#32,
   0x316e8eef#32, 0x4669be79#32, 0xcb61b38c#32, 0xbc66831a#32, 0x256fd2a0#32, 0x5268e236#32,
   0xcc0c7795#32, 0xbb0b4703#32, 0x220216b9#32, 0x5505262f#32, 0xc5ba3bbe#32, 0xb2bd0b28#32,
   0x2bb45a92#32, 0x5cb36a04#32, 0xc2d7ffa7#32, 0xb5d0cf31#32, 0x2cd99e8b#32, 0x5bdeae1d#32,
   0x9b64c2b0#32, 0xec63f226#32, 0x756aa39c#32, 0x026d930a#32, 0x9c0906a9#32, 0xeb0e363f#32,
   0x72076785#32, 0x05005713#32, 0x95bf4a82#32, 0xe2b87a14#32, 0x7bb12bae#32, 0x0cb61b38#32,
   0x92d28e9b#32, 0xe5d5be0d#32, 0x7cdcefb7#32, 0x0bdbdf21#32, 0x86d3d2d4#32, 0xf1d4e242#32,
   0x68ddb3f8#32, 0x1fda836e#32, 0x81be16cd#32, 0xf6b9265b#32, 0x6fb077e1#32, 0x18b74777#32,
   0x88085ae6#32, 0xff0f6a70#32, 0x66063bca#32, 0x11010b5c#32, 0x8f659eff#32, 0xf862ae69#32,
   0x616bffd3#32, 0x166ccf45#32, 0xa00ae278#32, 0xd70dd2ee#32, 0x4e048354#32, 0x3903b3c2#32,
   0xa7672661#32, 0xd06016f7#32, 0x4969474d#32, 0x3e6e77db#32, 0xaed16a4a#32, 0xd9d65adc#32,
   0x40df0b66#32, 0x37d83bf0#32, 0xa9bcae53#32, 0xdebb9ec5#32, 0x47b2cf7f#32, 0x30b5ffe9#32,
   0xbdbdf21c#32, 0xcabac28a#32, 0x53b39330#32, 0x24b4a3a6#32, 0xbad03605#32, 0xcdd70693#32,
   0x54de5729#32, 0x23d967bf#32, 0xb3667a2e#32, 0xc4614ab8#32, 0x5d681b02#32, 0x2a6f2b94#32,
   0xb40bbe37#32, 0xc30c8ea1#32, 0x5a05df1b#32, 0x2d02ef8d#32]

/-- The loop: `hash = crc32_tab[(hash ^ *p++) & 0xFF] ^ (hash >> 8)`. The index is below 256. -/
def crc32Loop : BitVec 32 → List UInt8 → BitVec 32
  | hash, [] => hash
  | hash, p :: data =>
    crc32Loop
      (crc32Tab.getD ((hash ^^^ p.toBitVec.setWidth 32) &&& 0xFF#32).toNat 0 ^^^ (hash >>> 8)) data

def inaHashCrc32 (hash : BitVec 32) (data : List UInt8) : BitVec 32 :=
  crc32Loop (hash ^^^ 0xFFFFFFFF#32) data ^^^ 0xFFFFFFFF#32

/-- The table holds what each byte leaves of a register with nothing else in it. -/
theorem crc32Tab_eq :
    crc32Tab = (List.range 256).map fun i => crcBits crc32Poly 8 (BitVec.ofNat 32 i) := by
  decide +kernel

theorem crc32Tab_getD {i : Nat} (hi : i < 256) :
    crc32Tab.getD i 0 = crcBits crc32Poly 8 (BitVec.ofNat 32 i) := by
  rw [crc32Tab_eq, List.getD_eq_getElem _ _ (by simpa using hi), List.getElem_map,
    List.getElem_range]

/-- **One turn** of the loop shifts a byte out. -/
theorem crc32Tab_byte (hash : BitVec 32) (p : UInt8) :
    crc32Tab.getD ((hash ^^^ p.toBitVec.setWidth 32) &&& 0xFF#32).toNat 0 ^^^ (hash >>> 8) =
      crcByte crc32Poly hash p := by
  have hindex : ((hash ^^^ p.toBitVec.setWidth 32) &&& 0xFF#32).toNat =
      (hash ^^^ p.toBitVec.setWidth 32).toNat % 2 ^ 8 := by
    rw [BitVec.toNat_and]
    exact Nat.and_two_pow_sub_one_eq_mod _ 8
  have hrest : (hash ^^^ p.toBitVec.setWidth 32) >>> 8 = hash >>> 8 := by
    have hgone : p.toBitVec.setWidth 32 >>> 8 = 0#32 := by
      apply BitVec.eq_of_toNat_eq
      have hlt := p.toNat_lt
      simp [Nat.shiftRight_eq_div_pow]
      omega
    rw [BitVec.ushiftRight_xor_distrib, hgone, BitVec.xor_zero]
  have hlt : (hash ^^^ p.toBitVec.setWidth 32).toNat % 2 ^ 8 < 256 := Nat.mod_lt _ (by decide)
  rw [crcByte, crcBits_eq_low _ _ (hash ^^^ _), hrest, hindex, crc32Tab_getD hlt]

theorem crc32Loop_eq (hash : BitVec 32) (data : List UInt8) :
    crc32Loop hash data = crcBytes crc32Poly hash data := by
  induction data generalizing hash with
  | nil => rfl
  | cons p data ih => rw [crc32Loop, crc32Tab_byte, ih, crcBytes_cons]

theorem inaHashCrc32_eq (hash : BitVec 32) (data : List UInt8) :
    inaHashCrc32 hash data = ~~~crcBytes crc32Poly (~~~hash) data := by
  have hones : ∀ x : BitVec 32, x ^^^ 0xFFFFFFFF#32 = ~~~x := fun x => BitVec.xor_allOnes
  rw [inaHashCrc32, hones, hones, crc32Loop_eq]

/-- **`ina_hash_crc32` is the CRC-32 bit by bit**, for every seed and every sequence of bytes, and
    the hash of one block is the seed for the next. -/
theorem crc32_bitwise_and_chains (seed : BitVec 32) :
    (∀ data, inaHashCrc32 seed data = ~~~crcBytes crc32Poly (~~~seed) data) ∧
      ∀ a b, inaHashCrc32 (inaHashCrc32 seed a) b = inaHashCrc32 seed (a ++ b) := by
  refine ⟨inaHashCrc32_eq seed, fun a b => ?_⟩
  rw [inaHashCrc32_eq, inaHashCrc32_eq, inaHashCrc32_eq, BitVec.not_not, crcBytes_append]

end Hash
end Inac
