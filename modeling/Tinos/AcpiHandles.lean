/-
What the ACPI library is given by the kernel (`kernel/acpi/kernel_apis.c`):
status codes, and handles. A handle is a pointer to an object on the kernel
heap, 0 for NULL. The pointer a result is written through is the variable it
points to, `none` for NULL.
-/
import Tinos.Heap

namespace Tinos

/-- The codes of `uacpi/status.h` that the kernel answers here. -/
inductive UacpiStatus
  | ok
  | outOfMemory
  | invalidArgument
  | timeout
deriving DecidableEq

def UacpiStatus.code : UacpiStatus → UInt32
  | .ok => 0
  | .outOfMemory => 2
  | .invalidArgument => 7
  | .timeout => 18

/-- A status returned as a `uacpi_bool`, which is a C `bool`. -/
def UacpiStatus.toBool (status : UacpiStatus) : Bool := status.code != 0

/-- `malloc`, but that a NULL is reported on the screen. -/
def uacpiKernelAlloc (pool : MemoryPool) (h : Heap) (size : UInt64) : Option (UInt64 × Heap) :=
  malloc pool h size

end Tinos
