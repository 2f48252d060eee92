import AArch64.Graph.Builder

/-!
# The A64 and C64 encoding index

The decode tables of A64 and of its capability state C64, and the graph that they build. The
tables follow the top level of the A64 encoding index down to encoding classes, and go on to the
reserved encodings of the classes that can be emitted. SIMD, floating point and SVE are not
classified.

```text
 31  28    25                                                 0
+---+-------+-------------------------------------------------+
|   |  op0  |                                                 |
+---+-------+-------------------------------------------------+
      0000  reserved              100x  data processing, immediate
      0001  reserved / C64        101x  branch, exception, system
      0010  SVE                   x1x0  loads and stores
      0011  reserved              x101  data processing, register
                                  x111  SIMD and floating point
```

## Main definitions

* `AArch64.EncodingIndex.tables` — the tables.
* `AArch64.EncodingIndex.graph` — their graph.
-/

set_option autoImplicit false

namespace AArch64

namespace EncodingIndex

open Table (otherwisePattern)

/-- The name of the top level of A64. -/
def rootName : String := "Root"

/-- The name of the top level of C64. -/
def capabilityRootName : String := "RootC64"

/-! ## Tables -/

/-- The top level of A64: `op0`, bits 28 to 25. -/
def root : Table where
  name := rootName
  bits := [28, 27, 26, 25]
  mapping := [
    ("0000", "Unallocated"),
    ("0001", "Unallocated"),
    ("0011", "Unallocated"),
    ("0010", "Unimplemented"),
    ("100x", "DataProcessingImmediate"),
    ("101x", "BranchesExceptionSystem"),
    ("x1x0", "LoadsStores"),
    ("x101", "DataProcessingRegister"),
    ("x111", "Unimplemented")]

/-- The top level of C64, where the region `op0 = 0001` is allocated. -/
def capabilityRoot : Table where
  name := capabilityRootName
  bits := [28, 27, 26, 25]
  mapping := [
    ("0000", "Unallocated"),
    ("0001", "Capability"),
    ("0011", "Unallocated"),
    ("0010", "Unimplemented"),
    ("100x", "DataProcessingImmediateC64"),
    ("101x", "BranchesExceptionSystemC64"),
    ("x1x0", "LoadsStores"),
    ("x101", "DataProcessingRegister"),
    ("x111", "Unimplemented")]

/-- The capability region: bits 31 to 29 and 24 to 22. -/
def capability : Table where
  name := "Capability"
  bits := [31, 30, 29, 24, 23, 22]
  mapping := [
    ("110001", "CapabilityBranchMemory"),
    ("0000xx", "CapabilityArithmetic"),
    ("110010", "CapabilityArithmetic"),
    (otherwisePattern, "Unimplemented")]

/-- Data processing, immediate: `op0`, bits 25 to 23. -/
def dataProcessingImmediate : Table where
  name := "DataProcessingImmediate"
  bits := [25, 24, 23]
  mapping := [
    ("00x", "PcRelAddressing"),
    ("010", "AddSubImmediate"),
    ("011", "Unimplemented"),
    ("100", "LogicalImmediateClass"),
    ("101", "MoveWideClass"),
    ("110", "BitfieldClass"),
    ("111", "ExtractClass")]

/-- Data processing, immediate, in C64, where addresses are capabilities. -/
def dataProcessingImmediateC64 : Table where
  name := "DataProcessingImmediateC64"
  bits := [25, 24, 23]
  mapping := [
    ("00x", "CapabilityPcRelAddressing"),
    ("010", "AddSubImmediate"),
    ("011", "Unimplemented"),
    ("100", "LogicalImmediateClass"),
    ("101", "MoveWideClass"),
    ("110", "BitfieldClass"),
    ("111", "ExtractClass")]

/-- Logical, immediate: `sf`, `N`. A 32-bit operation has no 64-bit element. -/
def logicalImmediateClass : Table where
  name := "LogicalImmediateClass"
  bits := [31, 22]
  mapping := [
    ("01", "Unallocated"),
    (otherwisePattern, "LogicalImmediate")]

/-- Move wide: `sf`, `opc`, `hw<1>`. A 32-bit register has two halfwords. -/
def moveWideClass : Table where
  name := "MoveWideClass"
  bits := [31, 30, 29, 22]
  mapping := [
    ("x01x", "Unallocated"),
    ("0xx1", "Unallocated"),
    (otherwisePattern, "MoveWide")]

/-- Bitfield: `sf`, `opc`, `N`. `N` equals `sf`. -/
def bitfieldClass : Table where
  name := "BitfieldClass"
  bits := [31, 30, 29, 22]
  mapping := [
    ("x11x", "Unallocated"),
    ("0xx1", "Unallocated"),
    ("1xx0", "Unallocated"),
    (otherwisePattern, "Bitfield")]

/-- Extract: `sf`, `op21`, `N`, `o0`. `N` equals `sf`. -/
def extractClass : Table where
  name := "ExtractClass"
  bits := [31, 30, 29, 22, 21]
  mapping := [
    ("xxxx1", "Unallocated"),
    ("x1xxx", "Unallocated"),
    ("xx1xx", "Unallocated"),
    ("0xx1x", "Unallocated"),
    ("1xx0x", "Unallocated"),
    (otherwisePattern, "Extract")]

/-- Branches, exception generation and system instructions. -/
def branchesExceptionSystem : Table where
  name := "BranchesExceptionSystem"
  bits := [31, 30, 29, 25, 24, 23, 22]
  mapping := [
    ("0100xxx", "ConditionalBranchClass"),
    ("11000xx", "ExceptionGeneration"),
    ("1100100", "System"),
    ("1101xxx", "UnconditionalBranchRegister"),
    ("x00xxxx", "UnconditionalBranchImmediate"),
    ("x010xxx", "CompareBranch"),
    ("x011xxx", "TestBranch"),
    (otherwisePattern, "Unallocated")]

/-- Branches, exception generation and system instructions in C64, where branches to a register go
to a capability. -/
def branchesExceptionSystemC64 : Table where
  name := "BranchesExceptionSystemC64"
  bits := [31, 30, 29, 25, 24, 23, 22]
  mapping := [
    ("0100xxx", "ConditionalBranchClass"),
    ("11000xx", "ExceptionGeneration"),
    ("1100100", "System"),
    ("1101xxx", "CapabilityBranchRegister"),
    ("x00xxxx", "UnconditionalBranchImmediate"),
    ("x010xxx", "CompareBranch"),
    ("x011xxx", "TestBranch"),
    (otherwisePattern, "Unallocated")]

/-- Conditional branch: `o1`, `o0`. -/
def conditionalBranchClass : Table where
  name := "ConditionalBranchClass"
  bits := [24, 4]
  mapping := [
    ("00", "ConditionalBranch"),
    (otherwisePattern, "Unallocated")]

/-- Loads and stores. -/
def loadsStores : Table where
  name := "LoadsStores"
  bits := [29, 28, 26, 24, 23]
  mapping := [
    ("0000x", "LoadStoreExclusive"),
    ("001xx", "Unimplemented"),
    ("0001x", "Unimplemented"),
    ("01x0x", "LoadLiteral"),
    ("01x1x", "Unallocated"),
    ("10x00", "LoadStorePairNonTemporal"),
    ("10x01", "LoadStorePairPostIndex"),
    ("10x10", "LoadStorePairOffset"),
    ("10x11", "LoadStorePairPreIndex"),
    ("11x0x", "LoadStoreRegisterClass"),
    ("11x1x", "LoadStoreUnsignedOffsetClass")]

/-- Load and store of one register: bit 21, bits 11 and 10. -/
def loadStoreRegisterClass : Table where
  name := "LoadStoreRegisterClass"
  bits := [21, 11, 10]
  mapping := [
    ("000", "LoadStoreUnscaledOffset"),
    ("001", "LoadStorePostIndex"),
    ("010", "LoadStoreUnprivileged"),
    ("011", "LoadStorePreIndex"),
    ("100", "AtomicMemory"),
    ("110", "LoadStoreRegisterOffsetClass"),
    ("1x1", "LoadStorePac")]

/-- Register offset: `option<1>`. Only words and doublewords are extended. -/
def loadStoreRegisterOffsetClass : Table where
  name := "LoadStoreRegisterOffsetClass"
  bits := [14]
  mapping := [
    ("0", "Unallocated"),
    ("1", "LoadStoreRegisterOffset")]

/-- Scaled offset: `size`, `V`, `opc`. -/
def loadStoreUnsignedOffsetClass : Table where
  name := "LoadStoreUnsignedOffsetClass"
  bits := [31, 30, 26, 23, 22]
  mapping := [
    ("1x011", "Unallocated"),
    (otherwisePattern, "LoadStoreUnsignedOffset")]

/-- Data processing, register. -/
def dataProcessingRegister : Table where
  name := "DataProcessingRegister"
  bits := [30, 28, 24, 23, 22, 21]
  mapping := [
    ("x00xxx", "LogicalShiftedClass"),
    ("x01xx0", "AddSubShiftedClass"),
    ("x01xx1", "AddSubExtendedClass"),
    ("x10000", "AddSubWithCarryClass"),
    ("x10010", "ConditionalCompareClass"),
    ("x10100", "ConditionalSelect"),
    ("010110", "DataProcessing2Source"),
    ("110110", "DataProcessing1Source"),
    ("x11xxx", "DataProcessing3Source"),
    (otherwisePattern, "Unallocated")]

/-- Logical, shifted register: `sf`, `imm6<5>`. -/
def logicalShiftedClass : Table where
  name := "LogicalShiftedClass"
  bits := [31, 15]
  mapping := [
    ("01", "Unallocated"),
    (otherwisePattern, "LogicalShifted")]

/-- Add and subtract, shifted register: `sf`, `shift`, `imm6<5>`. There is no rotation. -/
def addSubShiftedClass : Table where
  name := "AddSubShiftedClass"
  bits := [31, 23, 22, 15]
  mapping := [
    ("x11x", "Unallocated"),
    ("0xx1", "Unallocated"),
    (otherwisePattern, "AddSubShifted")]

/-- Add and subtract, extended register: `opt`, `imm3`. The shift is at most 4. -/
def addSubExtendedClass : Table where
  name := "AddSubExtendedClass"
  bits := [23, 22, 12, 11, 10]
  mapping := [
    ("1xxxx", "Unallocated"),
    ("x1xxx", "Unallocated"),
    ("xx101", "Unallocated"),
    ("xx11x", "Unallocated"),
    (otherwisePattern, "AddSubExtended")]

/-- Add and subtract with carry: `op3`. The flag manipulation forms are not classified. -/
def addSubWithCarryClass : Table where
  name := "AddSubWithCarryClass"
  bits := [15, 14, 13, 12, 11, 10]
  mapping := [
    ("000000", "AddSubWithCarry"),
    (otherwisePattern, "Unimplemented")]

/-- Conditional compare: bit 11. -/
def conditionalCompareClass : Table where
  name := "ConditionalCompareClass"
  bits := [11]
  mapping := [
    ("0", "ConditionalCompareRegister"),
    ("1", "ConditionalCompareImmediate")]

/-- The tables of the encoding index. -/
def tables : List Table :=
  [root, capabilityRoot, capability, dataProcessingImmediate, dataProcessingImmediateC64,
   logicalImmediateClass, moveWideClass, bitfieldClass, extractClass, branchesExceptionSystem,
   branchesExceptionSystemC64, conditionalBranchClass, loadsStores, loadStoreRegisterClass,
   loadStoreRegisterOffsetClass, loadStoreUnsignedOffsetClass, dataProcessingRegister,
   logicalShiftedClass, addSubShiftedClass, addSubExtendedClass, addSubWithCarryClass,
   conditionalCompareClass]

/-- The tables with the roots of both instruction sets. -/
def builder : Builder :=
  (({ tables } : Builder).root .a64 rootName).root .c64 capabilityRootName

/-- The graph of the encoding index. Its tables have no defect. -/
def graph : Graph :=
  match builder.build with
  | .ok g => g
  | .error _ => { cells := #[], baseRoot := 0, capabilityRoot := 0 }

end EncodingIndex

end AArch64
