import AeraRecovery.Lib.Storage

namespace AeraRecovery.Payload

open Lib

/-- The operations of the update format. A number outside the enumeration is kept as it is. -/
inductive OperationType
  | replace | replaceBz | move | bsdiff | sourceCopy | sourceBsdiff | zero | discard | replaceXz | puffdiff
  | brotliBsdiff | zucchini | lz4diffBsdiff | lz4diffPuffdiff | replaceZstd
  | unknown (value : Int)
  deriving DecidableEq

namespace OperationType

/-- Types 0, 1, 6, 7, 8 and 14: those that need no source image. -/
def full : OperationType → Bool
  | replace | replaceBz | zero | discard | replaceXz | replaceZstd => true
  | _ => false

/-- Types 6 and 7. -/
def empty : OperationType → Bool
  | zero | discard => true
  | _ => false

end OperationType

/-! Protobuf messages. An optional field that the message does not carry is `none`; the generated C++ accessors
return the default of the field's type for it. -/

structure Extent where
  startBlock : Option UInt64
  numBlocks : Option UInt64
  deriving DecidableEq

structure PartitionInfo where
  size : Option UInt64
  hash : Option Bytes
  deriving DecidableEq

structure InstallOperation where
  type : OperationType
  dataOffset : Option UInt64 := none
  dataLength : Option UInt64 := none
  srcExtents : List Extent := []
  dstExtents : List Extent
  dataSha256Hash : Option Bytes := none
  srcSha256Hash : Option Bytes := none
  deriving DecidableEq

structure PartitionUpdate where
  partitionName : Bytes
  oldPartitionInfo : Option PartitionInfo := none
  newPartitionInfo : Option PartitionInfo
  operations : List InstallOperation
  deriving DecidableEq

structure DeltaArchiveManifest where
  blockSize : Option UInt32
  partitions : List PartitionUpdate

def Extent.start (e : Extent) : UInt64 := e.startBlock.getD 0

def Extent.num (e : Extent) : UInt64 := e.numBlocks.getD 0

variable (op : InstallOperation)

def InstallOperation.offset : UInt64 := op.dataOffset.getD 0

def InstallOperation.length : UInt64 := op.dataLength.getD 0

def InstallOperation.hash : Bytes := op.dataSha256Hash.getD []

def PartitionUpdate.info (p : PartitionUpdate) : PartitionInfo := p.newPartitionInfo.getD ⟨none, none⟩

def PartitionUpdate.size (p : PartitionUpdate) : UInt64 := p.info.size.getD 0

def PartitionUpdate.hash (p : PartitionUpdate) : Bytes := p.info.hash.getD []

variable (block : Nat)

def Extent.bytes (e : Extent) : Nat × Nat :=
  (e.start.toNat * block, (e.start.toNat + e.num.toNat) * block)

def InstallOperation.bytes (block : Nat) (op : InstallOperation) : List (Nat × Nat) :=
  op.dstExtents.map (Extent.bytes block)

def PartitionUpdate.bytes (block : Nat) (p : PartitionUpdate) : List (Nat × Nat) :=
  p.operations.flatMap (InstallOperation.bytes block)

def span (es : List Extent) : Nat := (es.map fun e => e.num.toNat * block).sum

@[simp]
theorem span_nil : span block [] = 0 := rfl

@[simp]
theorem span_cons (e : Extent) (es : List Extent) : span block (e :: es) = e.num.toNat * block + span block es := by
  simp only [span, List.map_cons, List.sum_cons]

theorem Extent.bytes_length (e : Extent) : (e.bytes block).2 - (e.bytes block).1 = e.num.toNat * block := by
  simp only [Extent.bytes, Nat.add_mul, Nat.add_sub_cancel_left]

theorem sum_bytes_eq_span (es : List Extent) :
    ((es.map (Extent.bytes block)).map fun r => r.2 - r.1).sum = span block es := by
  simp only [List.map_map, span]
  congr 2
  funext e
  exact e.bytes_length block

end AeraRecovery.Payload
