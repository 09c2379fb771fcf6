import Relabel.Constant.Basic

/-!
# Unpacking deflated data

Deflated data is a row of blocks. A block is plain bytes, or a text over literals and back references
that is spelled in two prefix codes, one for literals and lengths and one for distances. A prefix code is
given by the lengths of its words alone: shorter words come first, and words of one length are numbered in
the order of their symbols.

Bits are taken from every byte lowest first. Every step of a loop takes at least one bit, so the number of
bits bounds the work. Data that ends before its last block does is told apart from data that makes no
sense: the first is the front of something that might.
-/

set_option autoImplicit false

namespace Relabel.Zip

/-- Why data cannot be unpacked. -/
inductive StreamFault where
  /-- The data ends before its last block does. -/
  | incomplete
  /-- The data is the front of no deflated data. -/
  | corrupt
  deriving DecidableEq, Repr

/-- A place in a string of bits. -/
structure BitCursor where
  data : Array UInt8
  /-- How many bits were taken. -/
  pos : Nat

/-- A computation that takes bits off the front. -/
abbrev BitReader (α : Type) := StateT BitCursor (Except StreamFault) α

namespace BitReader

/-- Gives up on bits that make no sense. -/
def corrupt {α : Type} : BitReader α := fun _ => .error .corrupt

/-- One bit. -/
def bit : BitReader Nat := fun c =>
  match c.data[c.pos / 8]? with
  | none => .error .incomplete
  | some byte => .ok ((byte.toNat >>> (c.pos % 8)) % 2, { c with pos := c.pos + 1 })

/-- A number of `n` bits, lowest first. -/
def bits : Nat → BitReader Nat
  | 0 => return 0
  | n + 1 => do
    let low ← bit
    let high ← bits n
    return low + 2 * high

/-- Goes on to the next whole byte. -/
def align : BitReader Unit := fun c =>
  .ok ((), { c with pos := (c.pos + 7) / 8 * 8 })

/-- A byte. -/
def byte : BitReader UInt8 := do
  return UInt8.ofNat (← bits 8)

end BitReader

open BitReader

/-! ## Prefix codes -/

/-- The length of the longest word of a code. -/
def longestWord : Nat := 15

/-- A prefix code: how many words there are of each length, and the symbols in the order of their words. -/
structure PrefixCode where
  counts : Array Nat
  symbols : Array Nat

namespace PrefixCode

/-- How many words of the greatest length are free when the counted words of every length are given out,
where each shorter word takes all words it starts. Absent when more words are given out than there are. -/
def freeWords (counts : Array Nat) : Option Nat :=
  (List.range longestWord).foldlM (fun free i =>
    let count := counts.getD (i + 1) 0
    if count ≤ 2 * free then some (2 * free - count) else none) 1

/-- The code whose words have the given lengths, where zero stands for a symbol without a word. -/
def ofLengths (lengths : List Nat) : PrefixCode :=
  let numbered := lengths.zipIdx
  { counts := lengths.foldl (fun counts l => counts.modify l (· + 1))
      (Array.replicate (longestWord + 1) 0)
    symbols := ((List.range longestWord).flatMap fun i =>
      numbered.filterMap fun (l, symbol) => if l = i + 1 then some symbol else none).toArray }

/-- Every string of bits starts with a word, and with one only. -/
def isComplete (code : PrefixCode) : Bool :=
  freeWords code.counts = some 0

/-- A code of at most one symbol, whose word is a single bit. No complete code is that small. -/
def isTiny (code : PrefixCode) : Bool :=
  code.symbols.size = 0 || (code.symbols.size = 1 && code.counts.getD 1 0 = 1)

/-- Reads a word of `length` to `length + more` bits, or of fewer bits if no word has more. Of its bits,
`word` are those already read, doubled; `first` is the first word of this length and `index` the number
of shorter words. -/
def decodeFrom (code : PrefixCode) : (more length word first index : Nat) → BitReader Nat
  | more, length, word, first, index => do
    let word := word + (← bit)
    let count := code.counts.getD length 0
    if word < first + count then
      match code.symbols[index + (word - first)]? with
      | some symbol => return symbol
      | none => corrupt
    else if index + count = code.symbols.size then corrupt
    else
      match more with
      | 0 => corrupt
      | more + 1 =>
        decodeFrom code more (length + 1) (2 * word) (2 * (first + count)) (index + count)

/-- Reads the symbol of a word. -/
def decode (code : PrefixCode) : BitReader Nat :=
  decodeFrom code (longestWord - 1) 1 0 0 0

end PrefixCode

/-! ## Back references -/

/-- The shortest length of each length symbol, and how many more bits it has. -/
def lengthSymbols : Array (Nat × Nat) :=
  #[(3, 0), (4, 0), (5, 0), (6, 0), (7, 0), (8, 0), (9, 0), (10, 0), (11, 1), (13, 1), (15, 1),
    (17, 1), (19, 2), (23, 2), (27, 2), (31, 2), (35, 3), (43, 3), (51, 3), (59, 3), (67, 4),
    (83, 4), (99, 4), (115, 4), (131, 5), (163, 5), (195, 5), (227, 5), (258, 0)]

/-- The shortest distance of each distance symbol, and how many more bits it has. -/
def distanceSymbols : Array (Nat × Nat) :=
  #[(1, 0), (2, 0), (3, 0), (4, 0), (5, 1), (7, 1), (9, 2), (13, 2), (17, 3), (25, 3), (33, 4),
    (49, 4), (65, 5), (97, 5), (129, 6), (193, 6), (257, 7), (385, 7), (513, 8), (769, 8),
    (1025, 9), (1537, 9), (2049, 10), (3073, 10), (4097, 11), (6145, 11), (8193, 12), (12289, 12),
    (16385, 13), (24577, 13)]

/-- The number that a symbol and the bits after it stand for. -/
def extended (table : Array (Nat × Nat)) (symbol : Nat) : BitReader Nat := do
  match table[symbol]? with
  | some (least, extra) => return least + (← bits extra)
  | none => corrupt

/-- Appends `length` bytes, each the one that stands `distance` before it. Before the first byte there is
nothing but zeros. -/
def copyBack (distance : Nat) : (length : Nat) → Array UInt8 → Array UInt8
  | 0, out => out
  | length + 1, out =>
    let byte := if distance ≤ out.size then out.getD (out.size - distance) 0 else 0
    copyBack distance length (out.push byte)

/-! ## Blocks -/

/-- The text of a block behind `out`, of at most `fuel` symbols. -/
def inflateText (literals distances : PrefixCode) :
    (fuel : Nat) → Array UInt8 → BitCursor → Except StreamFault (Array UInt8 × BitCursor)
  | 0, _, _ => .error .incomplete
  | fuel + 1, out, c =>
    match literals.decode c with
    | .error fault => .error fault
    | .ok (symbol, c) =>
      if symbol < 256 then inflateText literals distances fuel (out.push (UInt8.ofNat symbol)) c
      else if symbol = 256 then .ok (out, c)
      else
        match extended lengthSymbols (symbol - 257) c with
        | .error fault => .error fault
        | .ok (length, c) =>
          match (distances.decode >>= extended distanceSymbols) c with
          | .error fault => .error fault
          | .ok (distance, c) =>
            inflateText literals distances fuel (copyBack distance length out) c

/-- The word lengths of the code for literals and lengths that needs no description. Its last two symbols
stand for no length. -/
def fixedLiterals : List Nat :=
  List.replicate 144 8 ++ List.replicate 112 9 ++ List.replicate 24 7 ++ List.replicate 8 8

/-- The word lengths of the code for distances that needs no description. Its last two symbols stand for
no distance. -/
def fixedDistances : List Nat :=
  List.replicate 32 5

/-- The order in which the word lengths of the code for word lengths are written. -/
def lengthOrder : List Nat :=
  [16, 17, 18, 0, 8, 7, 9, 6, 10, 5, 11, 4, 12, 3, 13, 2, 14, 1, 15]

/-- How many symbols stand for a literal, the end of a block or a length. -/
def literalLimit : Nat := 286

/-- How many symbols stand for a distance. -/
def distanceLimit : Nat := 30

/-- Reads `n` word lengths behind `acc`, backwards; a length may be repeated. -/
def readLengths (code : PrefixCode) (n : Nat) : (fuel : Nat) → List Nat → BitReader (List Nat)
  | 0, _ => corrupt
  | fuel + 1, acc =>
    if acc.length = n then return acc.reverse
    else if n < acc.length then corrupt
    else do
      let symbol ← code.decode
      if symbol < 16 then readLengths code n fuel (symbol :: acc)
      else if symbol = 16 then
        match acc with
        | [] => corrupt
        | last :: _ => do
          let count ← bits 2
          readLengths code n fuel (List.replicate (3 + count) last ++ acc)
      else do
        let count ← if symbol = 17 then (3 + ·) <$> bits 3 else (11 + ·) <$> bits 7
        readLengths code n fuel (List.replicate count 0 ++ acc)

/-- The code for a text with words of the given lengths. It must be complete, unless it is so small that
it cannot be. -/
def textCode (lengths : List Nat) : BitReader PrefixCode :=
  let code := PrefixCode.ofLengths lengths
  if code.isComplete || code.isTiny then return code else corrupt

/-- Reads the two codes of a block that describes them. -/
def readCodes : BitReader (PrefixCode × PrefixCode) := do
  let literalCount := 257 + (← bits 5)
  let distanceCount := 1 + (← bits 5)
  let lengthCount := 4 + (← bits 4)
  if literalLimit < literalCount ∨ distanceLimit < distanceCount then corrupt
  else
    let written ← (lengthOrder.take lengthCount).mapM fun symbol => do
      return (symbol, ← bits 3)
    let lengths := (List.range 19).map fun symbol => (written.lookup symbol).getD 0
    let code := PrefixCode.ofLengths lengths
    if code.isComplete then
      let total := literalCount + distanceCount
      let all ← readLengths code total (total + 1) []
      let literals ← textCode (all.take literalCount)
      let distances ← textCode (all.drop literalCount)
      return (literals, distances)
    else corrupt

/-- Appends `n` plain bytes. -/
def inflatePlain :
    (n : Nat) → Array UInt8 → BitCursor → Except StreamFault (Array UInt8 × BitCursor)
  | 0, out, c => .ok (out, c)
  | n + 1, out, c =>
    match byte c with
    | .error fault => .error fault
    | .ok (b, c) => inflatePlain n (out.push b) c

/-- The block with the given kind behind `out`. -/
def inflateBlock (kind : Nat) (out : Array UInt8) : BitReader (Array UInt8) := do
  let fuel := 8 * (← get).data.size + 1
  match kind with
  | 0 => do
    align
    let length ← bits 16
    let check ← bits 16
    if length + check = 65535 then inflatePlain length out else corrupt
  | 1 =>
    inflateText (PrefixCode.ofLengths fixedLiterals) (PrefixCode.ofLengths fixedDistances) fuel out
  | 2 => do
    let (literals, distances) ← readCodes
    inflateText literals distances fuel out
  | _ => corrupt

/-- The blocks behind `out`, of which there are at most `fuel`. -/
def inflateBlocks : (fuel : Nat) → Array UInt8 → BitCursor → Except StreamFault (Array UInt8)
  | 0, _, _ => .error .incomplete
  | fuel + 1, out, c =>
    match (do return (← bit, ← inflateBlock (← bits 2) out)) c with
    | .error fault => .error fault
    | .ok ((last, out), c) => if last = 1 then .ok out else inflateBlocks fuel out c

/-- The content of deflated data. What stands behind the last block is ignored. -/
def inflate (data : Bytes) : Except StreamFault Bytes :=
  (inflateBlocks (8 * data.length + 1) #[] ⟨data.toArray, 0⟩).map Array.toList

/-! ## Packing -/

/-- The most bytes that a block of plain bytes holds. -/
def plainLimit : Nat := 65535

/-- One block of plain bytes. -/
def plainBlock (last : Bool) (bytes : Bytes) : Bytes :=
  let n := UInt16.ofNat bytes.length
  (if last then 1 else 0) :: n.toUInt8 :: (n >>> 8).toUInt8 :: (n ^^^ 0xffff).toUInt8
    :: ((n ^^^ 0xffff) >>> 8).toUInt8 :: bytes

/-- Data that unpacks to the given bytes behind `out`, in at most `fuel` blocks before the last. -/
def deflateFrom : (fuel : Nat) → Array UInt8 → Bytes → Bytes
  | 0, out, bytes => (out.appendList (plainBlock true bytes)).toList
  | fuel + 1, out, bytes =>
    match bytes.drop plainLimit with
    | [] => (out.appendList (plainBlock true bytes)).toList
    | rest => deflateFrom fuel (out.appendList (plainBlock false (bytes.take plainLimit))) rest

/-- Data that unpacks to the given bytes: blocks of plain bytes. -/
def deflate (bytes : Bytes) : Bytes :=
  deflateFrom (bytes.length / plainLimit) #[] bytes

end Relabel.Zip
