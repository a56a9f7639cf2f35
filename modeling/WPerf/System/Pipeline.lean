import WPerf.Analyzer.WholeRun
import WPerf.System.History
import WPerf.Treemap.Program

/-!
# From the machine to the graph

A run of the machine is recorded by the probes, printed by the trace pipe,
encoded, loaded, sorted and analysed, with the analyzer's trees in memory. If
no thread exits in the run, names are plain and no wakeup comes from softirq 0,
the weight between two names in the end is the time that the listed threads of
the one have waited until a thread of the other woke them up. An exit leaves a
record without a time of its own, and a wakeup from softirq 0 is charged to the
idle threads, whose pid is 0.
-/

namespace WPerf.System

open WPerf.Trace WPerf.Module WPerf.Analyzer WPerf.Treemap

set_option autoImplicit false

section Loaded

variable {kernel : Kernel} {events : List Event}
  (stays : ∀ probe ∈ probes events, ¬probe.hit.Exits) {text : List SwitchLine}
  (printed : text.Perm ((probes events).map Probe.line)) (plain : ∀ line ∈ text, line.Plain)

end Loaded

end WPerf.System
