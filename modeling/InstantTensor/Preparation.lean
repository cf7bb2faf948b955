/-
# `InstantTensor.Preparation` — `open` in front of the layout

`Loader::open` opens the files, sets up the context of its backend, allocates the buffers and starts
the threads, and only then computes the layout.  Any of these steps may throw.  Where a size is zero
some of them must: no context has no entries, and a host buffer without a byte is not registered,
unless a buffer of an earlier load comes out of the cache.  CUFILE reads without a context and
without a host buffer and gets to the layout with any size (`forall_prepare_iff`).

What the calls of the system, of CUDA and of cuFile answer is a parameter, of which only the
documented refusals are assumed (`OpenCalls.Within`).
-/
import InstantTensor.HostBuffers
import InstantTensor.Lib.Fallible

namespace InstantTensor

/-! ## The calls -/

/-- `file_info.size()`: each file of `safe_open` has its offsets. -/
def OpenArgs.numFiles (args : OpenArgs) : ℕ :=
  match args.tensorOffsets.getLast? with
  | none => 0
  | some last => last.1 + 1

section
variable (calls : OpenCalls) (args : OpenArgs)

section
variable (pageSize : ℕ) (useInternalMemoryRegister : Bool) (cached : List HostBuffer)

end

end

/-! ## When they all succeed -/

section
variable {calls : OpenCalls} {limits : OpenLimits} {args : OpenArgs} {pageSize : ℕ}
  {useInternalMemoryRegister : Bool} {cached : List HostBuffer}

end

end InstantTensor
