import Mathlib.Tactic

/-!
The instruction set of the TPL virtual machine: the kinds of operands with
their sizes in the byte stream, the bytecodes, and the table of operands each
bytecode takes. Emitter, iterator and interpreter agree only through this table.
-/

namespace Terrier.Tpl

inductive OperandType where
  | imm1 | imm2 | imm4 | imm8
  | imm4F | imm8F
  | uimm2 | uimm4
  | jumpOffset
  | local | localCount
  | functionId
deriving DecidableEq

/-- Bytes an operand takes; of a list of locals only its count. -/
def OperandType.size : OperandType → Nat
  | .imm1 => 1
  | .imm2 | .uimm2 | .localCount | .functionId => 2
  | .imm4 | .imm4F | .uimm4 | .jumpOffset | .local => 4
  | .imm8 | .imm8F => 8

/-- The master list, in the order of the source: a bytecode is encoded as its place in it. -/
inductive Bytecode where
  -- Primitive operations
  | negInt8 | negInt16 | negInt32 | negInt64 | negUInt8 | negUInt16 | negUInt32 | negUInt64
  | negFloat | negDouble | addInt8 | addInt16 | addInt32 | addInt64 | addUInt8 | addUInt16
  | addUInt32 | addUInt64 | addFloat | addDouble | subInt8 | subInt16 | subInt32 | subInt64
  | subUInt8 | subUInt16 | subUInt32 | subUInt64 | subFloat | subDouble | mulInt8 | mulInt16
  | mulInt32 | mulInt64 | mulUInt8 | mulUInt16 | mulUInt32 | mulUInt64 | mulFloat | mulDouble
  | divInt8 | divInt16 | divInt32 | divInt64 | divUInt8 | divUInt16 | divUInt32 | divUInt64
  | divFloat | divDouble | remInt8 | remInt16 | remInt32 | remInt64 | remUInt8 | remUInt16
  | remUInt32 | remUInt64 | remFloat | remDouble | bitAndInt8 | bitAndInt16 | bitAndInt32
  | bitAndInt64 | bitAndUInt8 | bitAndUInt16 | bitAndUInt32 | bitAndUInt64 | bitOrInt8
  | bitOrInt16 | bitOrInt32 | bitOrInt64 | bitOrUInt8 | bitOrUInt16 | bitOrUInt32 | bitOrUInt64
  | bitXorInt8 | bitXorInt16 | bitXorInt32 | bitXorInt64 | bitXorUInt8 | bitXorUInt16
  | bitXorUInt32 | bitXorUInt64 | bitNegInt8 | bitNegInt16 | bitNegInt32 | bitNegInt64
  | bitNegUInt8 | bitNegUInt16 | bitNegUInt32 | bitNegUInt64 | greaterThanInt8
  | greaterThanInt16 | greaterThanInt32 | greaterThanInt64 | greaterThanUInt8
  | greaterThanUInt16 | greaterThanUInt32 | greaterThanUInt64 | greaterThanFloat
  | greaterThanDouble | greaterThanBool | greaterThanEqualInt8 | greaterThanEqualInt16
  | greaterThanEqualInt32 | greaterThanEqualInt64 | greaterThanEqualUInt8
  | greaterThanEqualUInt16 | greaterThanEqualUInt32 | greaterThanEqualUInt64
  | greaterThanEqualFloat | greaterThanEqualDouble | greaterThanEqualBool | equalInt8
  | equalInt16 | equalInt32 | equalInt64 | equalUInt8 | equalUInt16 | equalUInt32 | equalUInt64
  | equalFloat | equalDouble | equalBool | lessThanInt8 | lessThanInt16 | lessThanInt32
  | lessThanInt64 | lessThanUInt8 | lessThanUInt16 | lessThanUInt32 | lessThanUInt64
  | lessThanFloat | lessThanDouble | lessThanBool | lessThanEqualInt8 | lessThanEqualInt16
  | lessThanEqualInt32 | lessThanEqualInt64 | lessThanEqualUInt8 | lessThanEqualUInt16
  | lessThanEqualUInt32 | lessThanEqualUInt64 | lessThanEqualFloat | lessThanEqualDouble
  | lessThanEqualBool | notEqualInt8 | notEqualInt16 | notEqualInt32 | notEqualInt64
  | notEqualUInt8 | notEqualUInt16 | notEqualUInt32 | notEqualUInt64 | notEqualFloat
  | notEqualDouble | notEqualBool
  -- Boolean complement
  | not
  -- Branching
  | jump | jumpIfTrue | jumpIfFalse
  -- Memory/pointer operations
  | isNullPtr | isNotNullPtr | deref1 | deref2 | deref4 | deref8 | derefN | assign1 | assign2
  | assign4 | assign8 | assignImm1 | assignImm2 | assignImm4 | assignImm8 | assignImm4F
  | assignImm8F | lea | leaScaled
  -- Function calls
  | call | return
  -- Execution Context
  | executionContextGetMemoryPool
  -- Thread State Container
  | threadStateContainerInit | threadStateContainerIterate | threadStateContainerReset
  | threadStateContainerFree
  -- Table Vector Iterator
  | tableVectorIteratorInit | tableVectorIteratorPerformInit | tableVectorIteratorNext
  | tableVectorIteratorReset | tableVectorIteratorFree | tableVectorIteratorGetPCI
  | parallelScanTable
  -- ProjectedColumns Iterator (PCI)
  | pciIsFiltered | pciHasNext | pciHasNextFiltered | pciAdvance | pciAdvanceFiltered | pciMatch
  | pciReset | pciResetFiltered | pciGetSlot | pciGetBool | pciGetTinyInt | pciGetSmallInt
  | pciGetInteger | pciGetBigInt | pciGetReal | pciGetDouble | pciGetDecimal | pciGetDateVal
  | pciGetTimestampVal | pciGetVarlen | pciGetBoolNull | pciGetTinyIntNull | pciGetSmallIntNull
  | pciGetIntegerNull | pciGetBigIntNull | pciGetRealNull | pciGetDoubleNull | pciGetDecimalNull
  | pciGetDateValNull | pciGetTimestampValNull | pciGetVarlenNull | pciFilterEqual
  | pciFilterGreaterThan | pciFilterGreaterThanEqual | pciFilterLessThan
  | pciFilterLessThanEqual | pciFilterNotEqual
  -- Filter Manager
  | filterManagerInit | filterManagerStartNewClause | filterManagerInsertFlavor
  | filterManagerFinalize | filterManagerRunFilters | filterManagerFree
  -- SQL type comparisons
  | forceBoolTruth | initBoolVal | initInteger | initReal | initDate | initTimestamp
  | initTimestampHMSu | initString | initVarlen | lessThanBoolVal | lessThanEqualBoolVal
  | greaterThanBoolVal | greaterThanEqualBoolVal | equalBoolVal | notEqualBoolVal
  | lessThanInteger | lessThanEqualInteger | greaterThanInteger | greaterThanEqualInteger
  | equalInteger | notEqualInteger | lessThanReal | lessThanEqualReal | greaterThanReal
  | greaterThanEqualReal | equalReal | notEqualReal | lessThanStringVal | lessThanEqualStringVal
  | greaterThanStringVal | greaterThanEqualStringVal | equalStringVal | notEqualStringVal
  | lessThanDateVal | lessThanEqualDateVal | greaterThanDateVal | greaterThanEqualDateVal
  | equalDateVal | notEqualDateVal | lessThanTimestampVal | lessThanEqualTimestampVal
  | greaterThanTimestampVal | greaterThanEqualTimestampVal | equalTimestampVal
  | notEqualTimestampVal
  -- SQL value unary operations
  | absInteger | absReal | valIsNull | valIsNotNull
  -- SQL value binary operations
  | addInteger | subInteger | mulInteger | divInteger | remInteger | addReal | subReal | mulReal
  | divReal | remReal
  -- Hashing
  | hashInt | hashReal | hashString | hashCombine
  -- Aggregation Hash Table
  | aggregationHashTableInit | aggregationHashTableInsert | aggregationHashTableLookup
  | aggregationHashTableProcessBatch | aggregationHashTableTransferPartitions
  | aggregationHashTableParallelPartitionedScan | aggregationHashTableFree
  | aggregationHashTableIteratorInit | aggregationHashTableIteratorHasNext
  | aggregationHashTableIteratorNext | aggregationHashTableIteratorGetRow
  | aggregationHashTableIteratorFree | aggregationOverflowPartitionIteratorHasNext
  | aggregationOverflowPartitionIteratorNext | aggregationOverflowPartitionIteratorGetHash
  | aggregationOverflowPartitionIteratorGetRow
  -- Aggregates
  | countAggregateInit | countAggregateAdvance | countAggregateMerge | countAggregateReset
  | countAggregateGetResult | countAggregateFree | countStarAggregateInit
  | countStarAggregateAdvance | countStarAggregateMerge | countStarAggregateReset
  | countStarAggregateGetResult | countStarAggregateFree | integerSumAggregateInit
  | integerSumAggregateAdvance | integerSumAggregateMerge | integerSumAggregateReset
  | integerSumAggregateGetResult | integerSumAggregateFree | integerMaxAggregateInit
  | integerMaxAggregateAdvance | integerMaxAggregateMerge | integerMaxAggregateReset
  | integerMaxAggregateGetResult | integerMaxAggregateFree | integerMinAggregateInit
  | integerMinAggregateAdvance | integerMinAggregateMerge | integerMinAggregateReset
  | integerMinAggregateGetResult | integerMinAggregateFree | avgAggregateInit
  | integerAvgAggregateAdvance | realAvgAggregateAdvance | avgAggregateMerge | avgAggregateReset
  | avgAggregateGetResult | avgAggregateFree | realSumAggregateInit | realSumAggregateAdvance
  | realSumAggregateMerge | realSumAggregateReset | realSumAggregateGetResult
  | realSumAggregateFree | realMaxAggregateInit | realMaxAggregateAdvance
  | realMaxAggregateMerge | realMaxAggregateReset | realMaxAggregateGetResult
  | realMaxAggregateFree | realMinAggregateInit | realMinAggregateAdvance
  | realMinAggregateMerge | realMinAggregateReset | realMinAggregateGetResult
  | realMinAggregateFree
  -- Hash Joins
  | joinHashTableInit | joinHashTableAllocTuple | joinHashTableIterInit
  | joinHashTableIterHasNext | joinHashTableIterGetRow | joinHashTableIterClose
  | joinHashTableBuild | joinHashTableBuildParallel | joinHashTableFree
  -- Sorting
  | sorterInit | sorterAllocTuple | sorterAllocTupleTopK | sorterAllocTupleTopKFinish
  | sorterSort | sorterSortParallel | sorterSortTopKParallel | sorterFree | sorterIteratorInit
  | sorterIteratorGetRow | sorterIteratorHasNext | sorterIteratorNext | sorterIteratorFree
  -- Output
  | outputAlloc | outputFinalize
  -- Index Iterator
  | indexIteratorInit | indexIteratorPerformInit | indexIteratorScanKey
  | indexIteratorScanAscending | indexIteratorScanDescending | indexIteratorScanLimitDescending
  | indexIteratorFree | indexIteratorAdvance | indexIteratorGetPR | indexIteratorGetLoPR
  | indexIteratorGetHiPR | indexIteratorGetTablePR | indexIteratorGetSlot
  -- ProjectedRow
  | prGetBool | prGetTinyInt | prGetSmallInt | prGetInt | prGetBigInt | prGetReal | prGetDouble
  | prGetDateVal | prGetTimestampVal | prGetVarlen | prGetBoolNull | prGetTinyIntNull
  | prGetSmallIntNull | prGetIntNull | prGetBigIntNull | prGetRealNull | prGetDoubleNull
  | prGetDateValNull | prGetTimestampValNull | prGetVarlenNull | prSetBool | prSetTinyInt
  | prSetSmallInt | prSetInt | prSetBigInt | prSetReal | prSetDouble | prSetDateVal
  | prSetTimestampVal | prSetVarlen | prSetBoolNull | prSetTinyIntNull | prSetSmallIntNull
  | prSetIntNull | prSetBigIntNull | prSetRealNull | prSetDoubleNull | prSetDateValNull
  | prSetTimestampValNull | prSetVarlenNull
  -- StorageInterface
  | storageInterfaceInit | storageInterfaceGetTablePR | storageInterfaceTableUpdate
  | storageInterfaceTableInsert | storageInterfaceTableDelete | storageInterfaceGetIndexPR
  | storageInterfaceIndexInsert | storageInterfaceIndexInsertUnique
  | storageInterfaceIndexDelete | storageInterfaceFree
  -- Trig functions
  | pi | e | acos | asin | atan | atan2 | cos | cot | sin | tan | cosh | tanh | sinh | sqrt
  | cbrt | exp | ceil | floor | truncate | ln | log2 | log10 | sign | radians | degrees | round
  | roundUpTo | log | pow
  -- String functions
  | left | length | lower | lPad | lTrim | repeat | reverse | right | rPad | rTrim | splitPart
  | substring | trim | upper
  -- String functions
  | getParamBool | getParamTinyInt | getParamSmallInt | getParamInt | getParamBigInt
  | getParamReal | getParamDouble | getParamDateVal | getParamTimestampVal | getParamString
deriving DecidableEq

namespace Bytecodes

def bytecodeSize : Nat := 4

def toByte (bytecode : Bytecode) : UInt32 :=
  UInt32.ofNat bytecode.ctorIdx

def fromByte (value : UInt32) : Option Bytecode :=
  if (Bytecode.ofNat value.toNat).ctorIdx = value.toNat then
    some (Bytecode.ofNat value.toNat)
  else
    none

theorem ctorIdx_lt (bytecode : Bytecode) : bytecode.ctorIdx < 512 := by
  cases bytecode <;> exact Nat.le_of_ble_eq_true rfl

theorem fromByte_toByte (bytecode : Bytecode) : fromByte (toByte bytecode) = some bytecode := by
  have hlt := ctorIdx_lt bytecode
  have hvalue : (toByte bytecode).toNat = bytecode.ctorIdx := by
    apply UInt32.toNat_ofNat_of_lt
    unfold UInt32.size
    omega
  rw [fromByte, hvalue, Bytecode.ofNat_ctorIdx, if_pos rfl]

def getOperandTypes : Bytecode → List OperandType
  | .negInt8 | .negInt16 | .negInt32 | .negInt64 | .negUInt8 | .negUInt16 | .negUInt32
  | .negUInt64 | .negFloat | .negDouble | .bitNegInt8 | .bitNegInt16 | .bitNegInt32
  | .bitNegInt64 | .bitNegUInt8 | .bitNegUInt16 | .bitNegUInt32 | .bitNegUInt64 | .not
  | .isNullPtr | .isNotNullPtr | .deref1 | .deref2 | .deref4 | .deref8 | .assign1 | .assign2
  | .assign4 | .assign8 | .executionContextGetMemoryPool | .threadStateContainerInit
  | .tableVectorIteratorNext | .tableVectorIteratorGetPCI | .pciIsFiltered | .pciHasNext
  | .pciHasNextFiltered | .pciMatch | .pciGetSlot | .filterManagerRunFilters
  | .forceBoolTruth | .initBoolVal | .initInteger | .initReal | .initTimestamp | .initVarlen
  | .absInteger | .absReal | .valIsNull | .valIsNotNull | .hashInt | .hashReal | .hashString
  | .hashCombine | .aggregationHashTableIteratorInit | .aggregationHashTableIteratorHasNext
  | .aggregationHashTableIteratorGetRow | .aggregationOverflowPartitionIteratorHasNext
  | .aggregationOverflowPartitionIteratorGetHash
  | .aggregationOverflowPartitionIteratorGetRow | .countAggregateAdvance
  | .countAggregateMerge | .countAggregateGetResult | .countStarAggregateAdvance
  | .countStarAggregateMerge | .countStarAggregateGetResult | .integerSumAggregateAdvance
  | .integerSumAggregateMerge | .integerSumAggregateGetResult | .integerMaxAggregateAdvance
  | .integerMaxAggregateMerge | .integerMaxAggregateGetResult | .integerMinAggregateAdvance
  | .integerMinAggregateMerge | .integerMinAggregateGetResult | .integerAvgAggregateAdvance
  | .realAvgAggregateAdvance | .avgAggregateMerge | .avgAggregateGetResult
  | .realSumAggregateAdvance | .realSumAggregateMerge | .realSumAggregateGetResult
  | .realMaxAggregateAdvance | .realMaxAggregateMerge | .realMaxAggregateGetResult
  | .realMinAggregateAdvance | .realMinAggregateMerge | .realMinAggregateGetResult
  | .joinHashTableIterGetRow | .sorterAllocTuple | .sorterAllocTupleTopK
  | .sorterAllocTupleTopKFinish | .sorterIteratorInit | .sorterIteratorGetRow
  | .sorterIteratorHasNext | .outputAlloc | .indexIteratorScanLimitDescending
  | .indexIteratorAdvance | .indexIteratorGetPR | .indexIteratorGetLoPR
  | .indexIteratorGetHiPR | .indexIteratorGetTablePR | .indexIteratorGetSlot
  | .storageInterfaceGetTablePR | .storageInterfaceTableInsert
  | .storageInterfaceIndexInsert | .storageInterfaceIndexInsertUnique
  | .storageInterfaceIndexDelete | .acos | .asin | .atan | .cos | .cot | .sin | .tan | .cosh
  | .tanh | .sinh | .sqrt | .cbrt | .exp | .ceil | .floor | .truncate | .ln | .log2 | .log10
  | .sign | .radians | .degrees | .round => [.local, .local]
  | .jump => [.jumpOffset]
  | .jumpIfTrue | .jumpIfFalse => [.local, .jumpOffset]
  | .derefN | .storageInterfaceGetIndexPR => [.local, .local, .uimm4]
  | .assignImm1 => [.local, .imm1]
  | .assignImm2 => [.local, .imm2]
  | .assignImm4 => [.local, .imm4]
  | .assignImm8 => [.local, .imm8]
  | .assignImm4F => [.local, .imm4F]
  | .assignImm8F => [.local, .imm8F]
  | .lea => [.local, .local, .imm4]
  | .leaScaled => [.local, .local, .local, .imm4, .imm4]
  | .call => [.functionId, .localCount]
  | .return => []
  | .threadStateContainerIterate => [.local, .local, .functionId]
  | .threadStateContainerReset => [.local, .local, .functionId, .functionId, .local]
  | .threadStateContainerFree | .tableVectorIteratorPerformInit | .tableVectorIteratorReset
  | .tableVectorIteratorFree | .pciAdvance | .pciAdvanceFiltered | .pciReset
  | .pciResetFiltered | .filterManagerInit | .filterManagerStartNewClause
  | .filterManagerFinalize | .filterManagerFree | .aggregationHashTableFree
  | .aggregationHashTableIteratorNext | .aggregationHashTableIteratorFree
  | .aggregationOverflowPartitionIteratorNext | .countAggregateInit | .countAggregateReset
  | .countAggregateFree | .countStarAggregateInit | .countStarAggregateReset
  | .countStarAggregateFree | .integerSumAggregateInit | .integerSumAggregateReset
  | .integerSumAggregateFree | .integerMaxAggregateInit | .integerMaxAggregateReset
  | .integerMaxAggregateFree | .integerMinAggregateInit | .integerMinAggregateReset
  | .integerMinAggregateFree | .avgAggregateInit | .avgAggregateReset | .avgAggregateFree
  | .realSumAggregateInit | .realSumAggregateReset | .realSumAggregateFree
  | .realMaxAggregateInit | .realMaxAggregateReset | .realMaxAggregateFree
  | .realMinAggregateInit | .realMinAggregateReset | .realMinAggregateFree
  | .joinHashTableIterClose | .joinHashTableBuild | .joinHashTableFree | .sorterSort
  | .sorterFree | .sorterIteratorNext | .sorterIteratorFree | .outputFinalize
  | .indexIteratorPerformInit | .indexIteratorScanKey | .indexIteratorScanDescending
  | .indexIteratorFree | .storageInterfaceFree | .pi | .e => [.local]
  | .tableVectorIteratorInit => [.local, .local, .uimm4, .local, .uimm4]
  | .parallelScanTable => [.uimm4, .uimm4, .local, .local, .functionId]
  | .pciGetBool | .pciGetTinyInt | .pciGetSmallInt | .pciGetInteger | .pciGetBigInt
  | .pciGetReal | .pciGetDouble | .pciGetDecimal | .pciGetDateVal | .pciGetTimestampVal
  | .pciGetVarlen | .pciGetBoolNull | .pciGetTinyIntNull | .pciGetSmallIntNull
  | .pciGetIntegerNull | .pciGetBigIntNull | .pciGetRealNull | .pciGetDoubleNull
  | .pciGetDecimalNull | .pciGetDateValNull | .pciGetTimestampValNull | .pciGetVarlenNull
  | .prGetBool | .prGetTinyInt | .prGetSmallInt | .prGetInt | .prGetBigInt | .prGetReal
  | .prGetDouble | .prGetDateVal | .prGetTimestampVal | .prGetVarlen | .prGetBoolNull
  | .prGetTinyIntNull | .prGetSmallIntNull | .prGetIntNull | .prGetBigIntNull
  | .prGetRealNull | .prGetDoubleNull | .prGetDateValNull | .prGetTimestampValNull
  | .prGetVarlenNull => [.local, .local, .uimm2]
  | .pciFilterEqual | .pciFilterGreaterThan | .pciFilterGreaterThanEqual
  | .pciFilterLessThan | .pciFilterLessThanEqual | .pciFilterNotEqual =>
    [.local, .local, .uimm4, .imm1, .imm8]
  | .filterManagerInsertFlavor => [.local, .functionId]
  | .initDate | .sorterSortTopKParallel | .left | .lTrim | .repeat | .right | .rTrim | .trim =>
    [.local, .local, .local, .local]
  | .initTimestampHMSu => [.local, .local, .local, .local, .local, .local, .local, .local]
  | .initString => [.local, .imm8, .imm8]
  | .aggregationHashTableLookup => [.local, .local, .local, .functionId, .local]
  | .aggregationHashTableProcessBatch =>
    [.local, .local, .functionId, .functionId, .functionId, .functionId]
  | .aggregationHashTableTransferPartitions | .aggregationHashTableParallelPartitionedScan =>
    [.local, .local, .local, .functionId]
  | .joinHashTableIterHasNext => [.local, .local, .functionId, .local, .local]
  | .sorterInit => [.local, .local, .functionId, .local]
  | .indexIteratorInit => [.local, .local, .uimm4, .uimm4, .uimm4, .local, .uimm4]
  | .prSetBool | .prSetTinyInt | .prSetSmallInt | .prSetInt | .prSetBigInt | .prSetReal
  | .prSetDouble | .prSetDateVal | .prSetTimestampVal | .prSetBoolNull | .prSetTinyIntNull
  | .prSetSmallIntNull | .prSetIntNull | .prSetBigIntNull | .prSetRealNull
  | .prSetDoubleNull | .prSetDateValNull | .prSetTimestampValNull => [.local, .uimm2, .local]
  | .prSetVarlen | .prSetVarlenNull => [.local, .uimm2, .local, .local]
  | .storageInterfaceInit => [.local, .local, .uimm4, .local, .uimm4, .local]
  | .lPad | .rPad | .splitPart | .substring => [.local, .local, .local, .local, .local]
  -- binary arithmetic, the comparisons and what else takes three locals
  | _ => [.local, .local, .local]

def numOperands (bytecode : Bytecode) : Nat :=
  (getOperandTypes bytecode).length

def getNthOperandType (bytecode : Bytecode) (operandIndex : Nat) : Option OperandType :=
  (getOperandTypes bytecode)[operandIndex]?

def getNthOperandOffset (bytecode : Bytecode) (operandIndex : Nat) : Nat :=
  bytecodeSize + (((getOperandTypes bytecode).take operandIndex).map OperandType.size).sum

def isJump (bytecode : Bytecode) : Bool :=
  bytecode == .jump || bytecode == .jumpIfFalse || bytecode == .jumpIfTrue

end Bytecodes

end Terrier.Tpl
