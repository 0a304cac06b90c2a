import Mathlib.Data.Int.Notation

/-!
# Error numbers

The error numbers that the C functions return negated.
-/

namespace Shoreline

/-- No such entry. -/
def ENOENT : ℤ := 2

/-- Out of memory. -/
def ENOMEM : ℤ := 12

/-- Invalid argument, also used for "not enough data". -/
def EINVAL : ℤ := 22

/-- No buffer space: a reply that does not fit the scratch buffer. -/
def ENOBUFS : ℤ := 105

end Shoreline
