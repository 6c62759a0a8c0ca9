/-! Compressed data unpacked: blocks of bytes as they are, or of symbols for bytes and for
repetitions of what has been unpacked before. Loops take fuel, of which the number of bits is
enough, since each step reads one at least. -/

namespace DocPath.Gzip

/-! ## Bits

Bytes are read bit by bit, lowest bit first. -/

/-- The bits that are left of a byte in part read, as a number and how many there are, and the
bytes behind it. -/
structure Bits where
  buffer : Nat
  count : Nat
  bytes : List UInt8

namespace Bits

def ofBytes (bytes : List UInt8) : Bits := ⟨0, 0, bytes⟩

/-- Takes bytes into the buffer until it has `size` bits. -/
def fill (size : Nat) (buffer count : Nat) : List UInt8 → Option Bits
  | [] => if size ≤ count then some ⟨buffer, count, []⟩ else none
  | byte :: rest =>
      if size ≤ count then some ⟨buffer, count, byte :: rest⟩
      else fill size (buffer + byte.toNat <<< count) (count + 8) rest

/-- The number that the next `size` bits stand for. -/
def take (size : Nat) (bits : Bits) : Option (Nat × Bits) :=
  (fill size bits.buffer bits.count bits.bytes).map fun b =>
    (b.buffer % (1 <<< size), ⟨b.buffer >>> size, b.count - size, b.bytes⟩)

/-- The bytes behind the one that is in part read. -/
def nextBytes (bits : Bits) : List UInt8 := bits.bytes

end Bits

/-! ## Codes

Frequent symbols take fewer bits. Codes are given by the lengths of their words: words of one
length are counted up in the order of their symbols, and shorter words come first. -/

/-- The symbols of a code by the lengths of their words, from one bit up. -/
abbrev Code := List (Array Nat)

namespace Code

/-- Words have this many bits at most. -/
def maxLength : Nat := 15

/-- The code with words of the given lengths. Symbols of length zero have no word. -/
def ofLengths (lengths : List Nat) : Code :=
  let level (length : Nat) : Array Nat :=
    ((lengths.zipIdx.filter fun e => e.1 = length).map Prod.snd).toArray
  (List.range maxLength).map fun i => level (i + 1)

/-- Reads a symbol. `offset` is the number of the word read so far among those of its length,
once those of shorter words have been passed over. -/
def read (offset : Nat) : Code → Bits → Option (Nat × Bits)
  | [], _ => none
  | symbols :: longer, bits => do
      let (bit, bits) ← bits.take 1
      let offset := 2 * offset + bit
      match symbols[offset]? with
      | some symbol => return (symbol, bits)
      | none => read (offset - symbols.size) longer bits

/-- The lengths of the code for data when no other code is given. -/
def presetLengths : List Nat :=
  List.replicate 144 8 ++ List.replicate 112 9 ++ List.replicate 24 7 ++ List.replicate 8 8

/-- The lengths of the code for distances when no other code is given. -/
def presetDistances : List Nat := List.replicate 30 5

end Code

/-! ## Repetitions -/

/-- A number by a base and a count of further bits. -/
abbrev Range := Nat × Nat

def lengthRanges : Array Range :=
  #[(3, 0), (4, 0), (5, 0), (6, 0), (7, 0), (8, 0), (9, 0), (10, 0), (11, 1), (13, 1), (15, 1),
    (17, 1), (19, 2), (23, 2), (27, 2), (31, 2), (35, 3), (43, 3), (51, 3), (59, 3), (67, 4),
    (83, 4), (99, 4), (115, 4), (131, 5), (163, 5), (195, 5), (227, 5), (258, 0)]

def distanceRanges : Array Range :=
  #[(1, 0), (2, 0), (3, 0), (4, 0), (5, 1), (7, 1), (9, 2), (13, 2), (17, 3), (25, 3), (33, 4),
    (49, 4), (65, 5), (97, 5), (129, 6), (193, 6), (257, 7), (385, 7), (513, 8), (769, 8),
    (1025, 9), (1537, 9), (2049, 10), (3073, 10), (4097, 11), (6145, 11), (8193, 12),
    (12289, 12), (16385, 13), (24577, 13)]

def readRange (ranges : Array Range) (symbol : Nat) (bits : Bits) : Option (Nat × Bits) := do
  let (base, size) ← ranges[symbol]?
  let (more, bits) ← bits.take size
  return (base + more, bits)

/-- Repeats `length` bytes from `distance` bytes back. What is repeated may reach into itself. -/
def copyBack (distance : Nat) : Nat → Array UInt8 → Option (Array UInt8)
  | 0, out => some out
  | length + 1, out =>
      if distance ≤ out.size then
        match out[out.size - distance]? with
        | some byte => copyBack distance length (out.push byte)
        | none => none
      else none

/-! ## Blocks -/

/-- The symbol that ends a block. Smaller ones are bytes, greater ones are lengths. -/
def endSymbol : Nat := 256

/-- The symbols of a block. -/
def readSymbols (data distances : Code) : Nat → Array UInt8 → Bits → Option (Array UInt8 × Bits)
  | 0, _, _ => none
  | fuel + 1, out, bits => do
      let (symbol, bits) ← data.read 0 bits
      if symbol < endSymbol then
        readSymbols data distances fuel (out.push symbol.toUInt8) bits
      else if symbol = endSymbol then return (out, bits)
      else
        let (length, bits) ← readRange lengthRanges (symbol - endSymbol - 1) bits
        let (symbol, bits) ← distances.read 0 bits
        let (distance, bits) ← readRange distanceRanges symbol bits
        readSymbols data distances fuel (← copyBack distance length out) bits

/-- A block of bytes as they are. Its size is given twice, the second time with all bits
turned over. -/
def readStored (out : Array UInt8) (bits : Bits) : Option (Array UInt8 × Bits) :=
  match bits.nextBytes with
  | a :: b :: c :: d :: rest =>
      let size := a.toNat + 256 * b.toNat
      if size + (c.toNat + 256 * d.toNat) = 0xFFFF && size ≤ rest.length then
        some (out ++ (rest.take size).toArray, .ofBytes (rest.drop size))
      else none
  | _ => none

/-- The lengths of a code, which are coded themselves. The symbols behind the lengths repeat the
last one, or stand for zeros. -/
def readLengths (code : Code) (total : Nat) : Nat → Array Nat → Bits → Option (Array Nat × Bits)
  | 0, _, _ => none
  | fuel + 1, lengths, bits =>
      if lengths.size = total then some (lengths, bits)
      else if total < lengths.size then none
      else do
        let (symbol, bits) ← code.read 0 bits
        let again (value base size : Nat) : Option (Array Nat × Bits) := do
          let (more, bits) ← bits.take size
          readLengths code total fuel (lengths ++ Array.replicate (base + more) value) bits
        if symbol < 16 then readLengths code total fuel (lengths.push symbol) bits
        else if symbol = 16 then again (← lengths.back?) 3 2
        else if symbol = 17 then again 0 3 3
        else again 0 11 7

/-- The order in which the lengths of the code for lengths are given. -/
def lengthOrder : List Nat :=
  [16, 17, 18, 0, 8, 7, 9, 6, 10, 5, 11, 4, 12, 3, 13, 2, 14, 1, 15]

/-- The numbers of three bits each that give the lengths of the code for lengths. -/
def readSmall : Nat → Bits → Option (List Nat × Bits)
  | 0, bits => some ([], bits)
  | count + 1, bits => do
      let (n, bits) ← bits.take 3
      let (more, bits) ← readSmall count bits
      return (n :: more, bits)

/-- The codes of a block that gives its own. -/
def readCodes (bits : Bits) : Option (Code × Code × Bits) := do
  let (data, bits) ← bits.take 5
  let (distances, bits) ← bits.take 5
  let (small, bits) ← bits.take 4
  let (given, bits) ← readSmall (small + 4) bits
  let order := lengthOrder.zip given
  let code := Code.ofLengths ((List.range 19).map fun i => (order.lookup i).getD 0)
  let total := data + 257 + (distances + 1)
  let (lengths, bits) ← readLengths code total (total + 1) #[] bits
  let lengths := lengths.toList
  return (.ofLengths (lengths.take (data + 257)), .ofLengths (lengths.drop (data + 257)), bits)

/-- A block of one of three kinds. -/
def readBlock (kind fuel : Nat) (out : Array UInt8) (bits : Bits) :
    Option (Array UInt8 × Bits) := do
  if kind = 0 then readStored out bits
  else if kind = 1 then
    let data := Code.ofLengths Code.presetLengths
    readSymbols data (.ofLengths Code.presetDistances) fuel out bits
  else if kind = 2 then
    let (data, distances, bits) ← readCodes bits
    readSymbols data distances fuel out bits
  else none

/-- Blocks up to the last. -/
def readBlocks : Nat → Array UInt8 → Bits → Option (Array UInt8 × Bits)
  | 0, _, _ => none
  | fuel + 1, out, bits => do
      let (last, bits) ← bits.take 1
      let (kind, bits) ← bits.take 2
      let (out, bits) ← readBlock kind (fuel + 1) out bits
      if last = 1 then return (out, bits) else readBlocks fuel out bits

/-- Unpacks data. Hands back the bytes behind it too. -/
def inflate (data : List UInt8) : Option (List UInt8 × List UInt8) :=
  (readBlocks (8 * data.length + 1) #[] (.ofBytes data)).map fun (out, bits) =>
    (out.toList, bits.nextBytes)

end DocPath.Gzip
