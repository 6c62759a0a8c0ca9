import DocPath.Gzip.Inflate

/-! Compressed data between a header and a checksum. -/

namespace DocPath.Gzip

/-- The first bytes of compressed data. -/
def mark : List UInt8 := [0x1F, 0x8B]

/-! ## Numbers -/

/-- A number in `size` bytes, the lowest first. -/
def numberBytes : Nat → Nat → List UInt8
  | 0, _ => []
  | size + 1, n => n.toUInt8 :: numberBytes size (n / 256)

def numberOf (bytes : List UInt8) : Nat := bytes.foldr (fun byte n => byte.toNat + 256 * n) 0

/-! ## Checksums

The remainder of the data as a polynomial over bits. -/

/-- The divisor without its leading term, lowest term in the highest bit. -/
def divisor : UInt32 := 0xEDB88320

/-- One step of the division. -/
def divideBit (remainder : UInt32) : UInt32 :=
  if remainder &&& 1 = 1 then (remainder >>> 1) ^^^ divisor else remainder >>> 1

def divideByte (remainder : UInt32) (byte : UInt8) : UInt32 :=
  Nat.repeat divideBit 8 (remainder ^^^ byte.toUInt32)

def checksum (data : List UInt8) : UInt32 :=
  data.foldl divideByte 0xFFFFFFFF ^^^ 0xFFFFFFFF

/-! ## Packing -/

/-- Blocks hold this many bytes at most. -/
def blockSize : Nat := 0xFFFF

/-- A block of bytes as they are. -/
def storedBlock (last : Bool) (data : List UInt8) : List UInt8 :=
  (if last then 1 else 0) ::
    numberBytes 2 data.length ++ numberBytes 2 (0xFFFF - data.length) ++ data

def storedBlocks : Nat → List UInt8 → List UInt8
  | 0, data => storedBlock true data
  | fuel + 1, data =>
      if data.length ≤ blockSize then storedBlock true data
      else storedBlock false (data.take blockSize) ++ storedBlocks fuel (data.drop blockSize)

/-- A header without any optional part. -/
def header : List UInt8 := mark ++ [8, 0, 0, 0, 0, 0, 0, 255]

def encode (data : List UInt8) : List UInt8 :=
  header ++ storedBlocks data.length data ++ numberBytes 4 (checksum data).toNat ++
    numberBytes 4 data.length

/-! ## Unpacking -/

/-- What is left behind the next byte that is zero. -/
def dropName (bytes : List UInt8) : Option (List UInt8) :=
  match bytes.dropWhile (· != 0) with
  | _ :: rest => some rest
  | [] => none

def dropSized (bytes : List UInt8) : Option (List UInt8) :=
  match bytes with
  | a :: b :: rest =>
      let size := numberOf [a, b]
      if size ≤ rest.length then some (rest.drop size) else none
  | _ => none

/-- What is left behind a header. Bits of a flag tell which optional parts it has. -/
def dropHeader (bytes : List UInt8) : Option (List UInt8) :=
  match bytes with
  | 0x1F :: 0x8B :: 8 :: flags :: _ :: _ :: _ :: _ :: _ :: _ :: rest => do
      let rest ← if flags &&& 4 != 0 then dropSized rest else some rest
      let rest ← if flags &&& 8 != 0 then dropName rest else some rest
      let rest ← if flags &&& 16 != 0 then dropName rest else some rest
      if flags &&& 2 != 0 then (if 2 ≤ rest.length then some (rest.drop 2) else none)
      else some rest
  | _ => none

/-- Unpacks data, if it is whole and agrees with its checksum and its size. -/
def decode? (bytes : List UInt8) : Option (List UInt8) := do
  let (data, rest) ← inflate (← dropHeader bytes)
  let sum := numberOf (rest.take 4)
  let size := numberOf ((rest.drop 4).take 4)
  if 8 ≤ rest.length && sum = (checksum data).toNat && size = data.length % UInt32.size then
    some data
  else none

end DocPath.Gzip
