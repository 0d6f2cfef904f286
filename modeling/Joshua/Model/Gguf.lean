/-
Module: Joshua.Model.Gguf
Purpose: The reader of GGUF headers, the check of a header against its file,
  the bytes of a tensor and the writer of stage slices (`gguf_ext.rs`).
Trusted boundary: hash maps are lists of entries; candle's `Value` holds what
  the reader puts into it, floats as their bits; a buffer or a file is shorter
  than `2 ^ 63` bytes, so that rounding its length up to an alignment below
  `2 ^ 32` does not wrap.  Other sums and products wrap, as in a release build.
-/
import Joshua.Foundation.Bytes
import Joshua.Foundation.Utf8
import Joshua.Model.Text

namespace Joshua.Gguf
open Joshua.Foundation

/-! ## Headers -/

/-- `gguf_file::Value`.  Signed numbers and floats are their bits. -/
inductive Value
  | u8 (value : BitVec 8)
  | i8 (value : BitVec 8)
  | u16 (value : BitVec 16)
  | i16 (value : BitVec 16)
  | u32 (value : BitVec 32)
  | i32 (value : BitVec 32)
  | f32 (bits : BitVec 32)
  | bool (value : Bool)
  | string (text : Text)
  | array (items : List Value)
  | u64 (value : BitVec 64)
  | i64 (value : BitVec 64)
  | f64 (bits : BitVec 64)

/-- `RawTensorInfo`: the dimensions are in row-major order, the offset counts
from the start of the tensor data. -/
structure TensorInfo where
  dtype : UInt32
  dims : List UInt64
  offset : UInt64
deriving Repr, DecidableEq

abbrev Metadata := List (Text × Value)

/-- `GgufHeader`. -/
structure Header where
  version : Nat
  metadata : Metadata
  tensors : List (Text × TensorInfo)
  /-- Where the tensor data begins in the file. -/
  tensorDataOffset : Nat

def magic : Nat := 0x46554747

def defaultAlignment : Nat := 32

/-- `MAX_COUNT`, `MAX_STRING_LENGTH` and `MAX_ARRAY_ELEMENTS`. -/
def maxCount : Nat := 2 ^ 24

def maxStringLength : Nat := 2 ^ 24

def maxArrayElements : Nat := 2 ^ 24

def maxValueDepth : Nat := 64

/-- What the functions on headers refuse. -/
inductive HeaderError
  /-- The stream ends before the bytes that are asked for. -/
  | endOfFile
  | badMagic
  | version (found : Nat)
  | counts
  | stringLength (size : Nat)
  | stringRemaining (size left : Nat)
  | depth
  | arrayLength (count : Nat)
  | valueType (found : Nat)
  | dimensions (name : Text) (count : Nat)
  | alignment (found : Nat)
  | misaligned (name : Text) (offset alignment : Nat)
  | split (part : Option Nat) (parts tensors : Nat)
  | pastEnd (name : Text) (start stop dataLength : Nat)
  | overlap (name : Text) (start stop : Nat) (other : Text) (next : Nat)
  | missing (name : Text)
  | unknownDtype (name : Text) (dtype : Nat)
deriving Repr, DecidableEq

/-! ## Reading -/

namespace Rdr

def u32 : Decoder HeaderError Nat :=
  Decoder.number .endOfFile 4

def u64 : Decoder HeaderError Nat :=
  Decoder.number .endOfFile 8

/-- Lengths take four bytes in version 1 and eight later. -/
def len (version : Nat) : Decoder HeaderError Nat :=
  if version = 1 then u32 else u64

/-- The bits of a fixed-width value. -/
def scalar (width : Nat) : Decoder HeaderError (BitVec width) := do
  let number ← Decoder.number .endOfFile (width / 8)
  return BitVec.ofNat width number

/-- A string: its length is checked against the cap and against what is left
of the stream; zeros at the end are dropped and the rest is decoded lossily. -/
def string (version : Nat) : Decoder HeaderError Text := do
  let size ← len version
  if maxStringLength < size then
    throw (.stringLength size)
  else do
    let bytes ← Decoder.take (.stringRemaining size) size
    return Utf8.lossy (Utf8.trimZeros bytes)

/-- A value of a type, `levels` being `MAX_VALUE_DEPTH + 1 - depth`. -/
def value (version : Nat) : Nat → Nat → Decoder HeaderError Value
  | 0, _ => throw .depth
  | levels + 1, type =>
    match type with
    | 0 => do return .u8 (← scalar 8)
    | 1 => do return .i8 (← scalar 8)
    | 2 => do return .u16 (← scalar 16)
    | 3 => do return .i16 (← scalar 16)
    | 4 => do return .u32 (← scalar 32)
    | 5 => do return .i32 (← scalar 32)
    | 6 => do return .f32 (← scalar 32)
    | 7 => do return .bool ((← scalar 8) != 0)
    | 8 => do return .string (← string version)
    | 9 => do
        let element ← u32
        let count ← len version
        if maxArrayElements < count then
          throw (.arrayLength count)
        else do
          return .array (← Decoder.many count (value version levels element))
    | 10 => do return .u64 (← scalar 64)
    | 11 => do return .i64 (← scalar 64)
    | 12 => do return .f64 (← scalar 64)
    | other => throw (.valueType other)

/-- A key with its value. -/
def entry (version : Nat) : Decoder HeaderError (Text × Value) := do
  let key ← string version
  let type ← u32
  let read ← value version (maxValueDepth + 1) type
  return (key, read)

/-- A tensor's name with its description.  The file stores the dimensions
fastest-varying first. -/
def tensor (version : Nat) : Decoder HeaderError (Text × TensorInfo) := do
  let name ← string version
  let count ← u32
  if 8 < count then
    throw (.dimensions name count)
  else do
    let dims ← Decoder.many count (len version)
    let dtype ← u32
    let offset ← u64
    return (name, {
      dtype := UInt32.ofNat dtype
      dims := (dims.map UInt64.ofNat).reverse
      offset := UInt64.ofNat offset })

end Rdr

def alignmentKey : Text := "general.alignment".toList

/-- The alignment that the metadata names, or the default. -/
def namedAlignment : Option Value → Nat
  | some (.u8 number) => number.toNat
  | some (.u16 number) => number.toNat
  | some (.u32 number) => number.toNat
  | some (.i8 number) => if 0 ≤ number.toInt then number.toNat else defaultAlignment
  | some (.i16 number) => if 0 ≤ number.toInt then number.toNat else defaultAlignment
  | some (.i32 number) => if 0 ≤ number.toInt then number.toNat else defaultAlignment
  | _ => defaultAlignment

/-- `alignment`: a power of two. -/
def alignment (metadata : Metadata) : Except HeaderError Nat :=
  let named := namedAlignment (OrderedMap.get alignmentKey metadata)
  if named = 0 ∨ 2 ^ named.log2 ≠ named then .error (.alignment named)
  else .ok named

/-- `div_ceil(alignment) * alignment` where it does not wrap. -/
def roundUp (length alignment : Nat) : Nat :=
  (length + alignment - 1) / alignment * alignment

/-- What the header says before anything is concluded from it. -/
structure Directory where
  version : Nat
  metadata : Metadata
  tensors : List (Text × TensorInfo)

/-- The part of `read_header` that reads the stream. -/
def readDirectory : Decoder HeaderError Directory := do
  let start ← Rdr.u32
  if start ≠ magic then
    throw .badMagic
  else do
    let version ← Rdr.u32
    if version < 1 ∨ 3 < version then
      throw (.version version)
    else do
      let tensorCount ← Rdr.len version
      let kvCount ← Rdr.len version
      if maxCount < tensorCount ∨ maxCount < kvCount then
        throw .counts
      else do
        let metadata ← Decoder.many kvCount (Rdr.entry version)
        let tensors ← Decoder.many tensorCount (Rdr.tensor version)
        -- a key that comes again overwrites
        return {
          version := version
          metadata := OrderedMap.collect metadata
          tensors := OrderedMap.collect tensors }

/-- The misaligned tensor that `read_header` reports: one of those with the
least offset. -/
def misaligned (alignment : Nat) (tensors : List (Text × TensorInfo)) :
    Option (Text × TensorInfo) :=
  minByKey? (fun entry => entry.2.offset.toNat)
    (tensors.filter fun entry => entry.2.offset.toNat % alignment ≠ 0)

/-- `read_header` on a file. -/
def readHeader (file : List UInt8) : Except HeaderError Header := do
  let (directory, rest) ← readDirectory file
  let alignment ← alignment directory.metadata
  match misaligned alignment directory.tensors with
  | some (name, info) => .error (.misaligned name info.offset.toNat alignment)
  | none =>
    return {
      version := directory.version
      metadata := directory.metadata
      tensors := directory.tensors
      tensorDataOffset := roundUp (file.length - rest.length) alignment }

/-! ## Sizes -/

/-- `*` and `-` on 64-bit counters of an unchecked build. -/
def wrapMul (left right : Nat) : Nat :=
  left * right % u64Limit

def wrapSub (left right : Nat) : Nat :=
  (left + (u64Limit - right)) % u64Limit

/-- `elem_count`. -/
def TensorInfo.elemCount (info : TensorInfo) : Nat :=
  info.dims.foldl (fun product dim => wrapMul product dim.toNat) 1

/-- `raw_block::layout`: the elements and the bytes of a block. -/
def rawBlockLayout : Nat → Option (Nat × Nat)
  | 16 => some (256, 66)  -- IQ2_XXS
  | 17 => some (256, 74)  -- IQ2_XS
  | 18 => some (256, 98)  -- IQ3_XXS
  | 19 => some (256, 50)  -- IQ1_S
  | 20 => some (32, 18)  -- IQ4_NL
  | 21 => some (256, 110)  -- IQ3_S
  | 22 => some (256, 82)  -- IQ2_S
  | 23 => some (256, 136)  -- IQ4_XS
  | 29 => some (256, 56)  -- IQ1_M
  | 34 => some (256, 54)  -- TQ1_0
  | 35 => some (256, 66)  -- TQ2_0
  | 39 => some (32, 17)  -- MXFP4
  | 40 => some (64, 36)  -- NVFP4
  | 41 => some (128, 18)  -- Q1_0
  | 42 => some (64, 18)  -- Q2_0
  | _ => none

/-- The block layouts that `type_size_bytes` knows. -/
def blockLayout : Nat → Option (Nat × Nat)
  | 0 => some (1, 4)  -- F32
  | 1 => some (1, 2)  -- F16
  | 30 => some (1, 2)  -- BF16
  | 2 => some (32, 18)  -- Q4_0
  | 3 => some (32, 20)  -- Q4_1
  | 6 => some (32, 22)  -- Q5_0
  | 7 => some (32, 24)  -- Q5_1
  | 8 => some (32, 34)  -- Q8_0
  | 9 => some (32, 36)  -- Q8_1
  | 10 => some (256, 84)  -- Q2_K
  | 11 => some (256, 110)  -- Q3_K
  | 12 => some (256, 144)  -- Q4_K
  | 13 => some (256, 176)  -- Q5_K
  | 14 => some (256, 210)  -- Q6_K
  | 15 => some (256, 292)  -- Q8_K
  | 26 => some (1, 4)  -- I32
  | other => rawBlockLayout other

/-- `type_size_bytes`. -/
def typeSizeBytes (dtype : UInt32) (elems : Nat) : Option Nat :=
  match blockLayout dtype.toNat with
  | none => none
  | some (block, bytes) => if elems % block ≠ 0 then none else some (wrapMul (elems / block) bytes)

/-- The size of a tensor as the code computes it. -/
def TensorInfo.size (info : TensorInfo) : Option Nat :=
  typeSizeBytes info.dtype info.elemCount

/-! ## Checking a header against its file -/

/-- The counts that `validate_layout` accepts as numbers. -/
def splitCount : Option Value → Option Nat
  | some (.u16 number) => some number.toNat
  | some (.u32 number) => some number.toNat
  | some (.i32 number) => if 0 ≤ number.toInt then some number.toNat else none
  | _ => none

/-- The data bytes of a tensor. -/
structure Span where
  start : Nat
  stop : Nat
  name : Text
deriving Repr, DecidableEq

/-- Strings are ordered by their bytes, which is the order of the code
points. -/
def textLe : Text → Text → Bool
  | [], _ => true
  | _ :: _, [] => false
  | left :: lefts, right :: rights =>
    left.toNat < right.toNat ||
      (left.toNat == right.toNat && textLe lefts rights)

/-- The order of the triples `(start, end, name)`. -/
def Span.le (left right : Span) : Bool :=
  left.start < right.start ||
    (left.start == right.start && (left.stop < right.stop ||
        (left.stop == right.stop && textLe left.name right.name)))

def span (entry : Text × TensorInfo) : Option Span :=
  entry.2.size.map fun size =>
    { start := entry.2.offset.toNat
      stop := satAdd entry.2.offset.toNat size
      name := entry.1 }

/-- The loop of `validate_layout`: each span ends in the data section and
before the next one starts. -/
def checkSpans (dataLength : Nat) : List Span → Except HeaderError Unit
  | [] => .ok ()
  | here :: rest =>
    if dataLength < here.stop then
      .error (.pastEnd here.name here.start here.stop dataLength)
    else
      match rest.head? with
      | some next =>
        if next.start < here.stop then
          .error (.overlap here.name here.start here.stop next.name next.start)
        else checkSpans dataLength rest
      | none => checkSpans dataLength rest

/-- `validate_layout`. -/
def Header.validateLayout (header : Header) (fileLength : Nat) : Except HeaderError Unit :=
  let count (key : String) := splitCount (OrderedMap.get key.toList header.metadata)
  match (count "split.count").filter fun parts => 1 < parts with
  | some parts => .error (.split (count "split.no") parts header.tensors.length)
  | none =>
    let dataLength := fileLength - header.tensorDataOffset
    checkSpans dataLength ((header.tensors.filterMap span).mergeSort Span.le)

/-! ## The bytes of a tensor -/

inductive TensorError
  | missing (name : Text)
  | noSize (name : Text) (dtype : Nat)
  | endOfFile
deriving Repr, DecidableEq

/-- `read_raw_bytes`: seeking behind the end succeeds, reading there does
not. -/
def readRawBytes (file : List UInt8) (tensorDataOffset : Nat) (name : Text)
    (info : TensorInfo) : Except TensorError (List UInt8) :=
  match info.size with
  | none => .error (.noSize name info.dtype.toNat)
  | some size =>
    let tail := file.drop (wrapAdd tensorDataOffset info.offset.toNat)
    if size ≤ tail.length then .ok (tail.take size) else .error .endOfFile

/-- `read_tensor_bytes`. -/
def Header.readTensorBytes (header : Header) (file : List UInt8)
    (name : Text) : Except TensorError (List UInt8) :=
  match OrderedMap.get name header.tensors with
  | none => .error (.missing name)
  | some info => readRawBytes file header.tensorDataOffset name info

/-! ## Stage slices -/

/-- `metadata_type_id`. -/
def metadataTypeId : Value → Nat
  | .u8 _ => 0
  | .i8 _ => 1
  | .u16 _ => 2
  | .i16 _ => 3
  | .u32 _ => 4
  | .i32 _ => 5
  | .f32 _ => 6
  | .bool _ => 7
  | .string _ => 8
  | .array _ => 9
  | .u64 _ => 10
  | .i64 _ => 11
  | .f64 _ => 12

/-- `to_le_bytes`. -/
def scalarBytes {width : Nat} (bits : BitVec width) : List UInt8 :=
  leBytes (width / 8) bits.toNat

def stringBytes (text : Text) : List UInt8 :=
  leBytes 8 (Utf8.encode text).length ++ Utf8.encode text

mutual

/-- `write_metadata_value`.  An empty array is written with element type 0. -/
def writeMetadataValue : Value → List UInt8
  | .u8 value => scalarBytes value
  | .i8 value => scalarBytes value
  | .u16 value => scalarBytes value
  | .i16 value => scalarBytes value
  | .u32 value => scalarBytes value
  | .i32 value => scalarBytes value
  | .u64 value => scalarBytes value
  | .i64 value => scalarBytes value
  | .f32 bits => scalarBytes bits
  | .f64 bits => scalarBytes bits
  | .bool value => [if value then 1 else 0]
  | .string text => stringBytes text
  | .array items =>
    leBytes 4 (items.head?.elim 0 metadataTypeId) ++ (leBytes 8 items.length ++ writeItems items)

def writeItems : List Value → List UInt8
  | [] => []
  | item :: items => writeMetadataValue item ++ writeItems items

end

def entryBytes (entry : Text × Value) : List UInt8 :=
  stringBytes entry.1 ++ (leBytes 4 (metadataTypeId entry.2) ++ writeMetadataValue entry.2)

/-- A tensor of the new file: its description in the source, its size and
its offset in the new file. -/
structure Placement where
  name : Text
  info : TensorInfo
  size : Nat
  offset : Nat

/-- The size with the padding behind it. -/
def paddedSize (alignment size : Nat) : Nat :=
  wrapMul ((size + alignment - 1) / alignment) alignment

/-- The loop of `subset_layout` over the names. -/
def placements (header : Header) (alignment : Nat) :
    Nat → List Text → Except HeaderError (List Placement)
  | _, [] => .ok []
  | offset, name :: names =>
    match OrderedMap.get name header.tensors with
    | none => .error (.missing name)
    | some info =>
      match info.size with
      | none => .error (.unknownDtype name info.dtype.toNat)
      | some size =>
        (placements header alignment (wrapAdd offset (paddedSize alignment size)) names).map
          ({ name, info, size, offset } :: ·)

/-- What the loop writes for a tensor. -/
def Placement.bytes (placement : Placement) : List UInt8 :=
  stringBytes placement.name ++ (leBytes 4 placement.info.dims.length ++
      (placement.info.dims.reverse.flatMap (fun dim => leBytes 8 dim.toNat) ++
        (leBytes 4 placement.info.dtype.toNat ++ leBytes 8 placement.offset)))

/-- `SourceRange`: the bytes in the source file, and the zeros behind them in
the new one. -/
structure SourceRange where
  start : Nat
  stop : Nat
  padding : Nat
deriving Repr, DecidableEq

def Placement.range (tensorDataOffset alignment : Nat) (placement : Placement) : SourceRange :=
  let start := wrapAdd tensorDataOffset placement.info.offset.toNat
  { start := start
    stop := wrapAdd start placement.size
    padding := wrapSub (paddedSize alignment placement.size) placement.size }

/-- The metadata in the order of its keys. -/
def sortedMetadata (metadata : Metadata) : Metadata :=
  metadata.mergeSort fun left right => textLe left.1 right.1

/-- `subset_layout`: the header of a file with only the named tensors, and
where their bytes are in the source. -/
def subsetLayout (header : Header) (names : List Text) :
    Except HeaderError (List UInt8 × List SourceRange) := do
  let alignment ← alignment header.metadata
  let placed ← placements header alignment 0 names
  let out := leBytes 4 magic ++ (leBytes 4 3 ++ (leBytes 8 names.length ++
    (leBytes 8 header.metadata.length ++ ((sortedMetadata header.metadata).flatMap entryBytes ++
        placed.flatMap Placement.bytes))))
  let padding := roundUp out.length alignment - out.length
  return (out ++ List.replicate padding 0,
    placed.map (Placement.range header.tensorDataOffset alignment))

/-- The bytes of a source range, and its padding. -/
def SourceRange.copy (file : List UInt8) (range : SourceRange) : List UInt8 :=
  (file.drop range.start).take (range.stop - range.start) ++ List.replicate range.padding 0

/-- The new file: the header, then each range with its padding. -/
def subsetFile (file : List UInt8) (layout : List UInt8 × List SourceRange) : List UInt8 :=
  layout.1 ++ layout.2.flatMap (SourceRange.copy file)

end Joshua.Gguf
