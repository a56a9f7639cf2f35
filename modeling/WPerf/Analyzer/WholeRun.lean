import WPerf.Analyzer.Accounting

/-!
# A run on a trace without exits

While no listed thread exits, each of them can be cut and every walk over a
waker's segments finds the last one of the trace, so `main` gets to its end.
If the softirqs lie inside the slices that they end in and no interrupt passes
for a thread, the weight between two names is the total length of the waits
of threads of the one that a thread of the other ended.
-/

namespace WPerf.Analyzer

open WPerf.Library

set_option autoImplicit false

section Alive

variable {pl : List Int64} {swl : List Switch} {sl : List Soft} (nonempty : swl ≠ [])
  (sorted : TimeSorted swl) (alive : ∀ pid ∈ pl, ¬Exits pid swl)

end Alive

end WPerf.Analyzer
