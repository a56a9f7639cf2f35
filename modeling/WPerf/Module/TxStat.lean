import WPerf.Module.Kernel

/-!
# The tx_stat event

The bitmap of the pids to watch, the bytes each pid has sent, the five probes
that count, and the operations behind the event's three files.
-/

namespace WPerf.Module

open WPerf.Library

set_option autoImplicit false

/-- `PID_MAX_LIMIT`. The kernel keeps every pid below it. -/
def pidMaxLimit : Nat := 4 * 1024 * 1024

abbrev Pid := Fin pidMaxLimit

inductive SendProbe where
  | tcpSendmsg
  | udpSendmsg
  | tcpSendpage
  | udpSendpage
  | sockSendmsg
deriving DecidableEq, Repr

/-- The static data of the event, and which probes are armed. -/
structure TxStat where
  filter : Pid → Bool
  txStats : Pid → Int64
  txEnabled : Bool
  armed : SendProbe → Bool

namespace TxStat

def init : TxStat where
  filter := fun _ => false
  txStats := fun _ => 0
  txEnabled := false
  armed := fun _ => false

def enableJprobe (probe : SendProbe) (s : TxStat) : TxStat :=
  { s with armed := fun other => if other = probe then true else s.armed other }

def disableJprobe (probe : SendProbe) (s : TxStat) : TxStat :=
  { s with armed := fun other => if other = probe then false else s.armed other }

def disableTxStatProbes (s : TxStat) : TxStat :=
  let s := s.disableJprobe .tcpSendmsg
  let s := s.disableJprobe .udpSendmsg
  let s := s.disableJprobe .tcpSendpage
  let s := s.disableJprobe .udpSendpage
  s.disableJprobe .sockSendmsg

def enableTxStatProbes (s : TxStat) : TxStat :=
  let s := s.enableJprobe .tcpSendmsg
  let s := s.enableJprobe .udpSendmsg
  let s := s.enableJprobe .tcpSendpage
  let s := s.enableJprobe .udpSendpage
  s.enableJprobe .sockSendmsg

def bitmapZero (s : TxStat) : TxStat := { s with filter := fun _ => false }

/-- `bitmap_set(filter, pid, 1)`, whose start argument has 32 bits. -/
def bitmapSet (pid : UInt64) (s : TxStat) : Except Fault TxStat :=
  if pid.toUInt32.toNat < pidMaxLimit then
    .ok { s with filter := fun p => if p.val = pid.toUInt32.toNat then true else s.filter p }
  else .error .outOfBounds

/-- The body of the five probes: `current->pid` sends `size` bytes. -/
def countSend (current : Pid) (size : UInt64) (s : TxStat) : TxStat :=
  if s.filter current then
    { s with txStats := fun p =>
        if p = current then ((s.txStats p).toUInt64 + size).toInt64 else s.txStats p }
  else s

def onTcpSendmsgEnt (current : Pid) (size : UInt64) (s : TxStat) : TxStat :=
  s.countSend current size

def onUdpSendmsgEnt (current : Pid) (len : UInt64) (s : TxStat) : TxStat :=
  s.countSend current len

def onTcpSendpageEnt (current : Pid) (size : UInt64) (s : TxStat) : TxStat :=
  s.countSend current size

def onUdpSendpageEnt (current : Pid) (size : UInt64) (s : TxStat) : TxStat :=
  s.countSend current size

def onSockSendmsgEnt (current : Pid) (size : UInt64) (s : TxStat) : TxStat :=
  s.countSend current size

def onSend : SendProbe → Pid → UInt64 → TxStat → TxStat
  | .tcpSendmsg => onTcpSendmsgEnt
  | .udpSendmsg => onUdpSendmsgEnt
  | .tcpSendpage => onTcpSendpageEnt
  | .udpSendpage => onUdpSendpageEnt
  | .sockSendmsg => onSockSendmsgEnt

def txStatsEnableRead (s : TxStat) : Bool := s.txEnabled

def txStatsEnableWrite (value : Bool) (s : TxStat) : Except Fault TxStat :=
  let s := { s with txEnabled := value }
  match s.txEnabled with
  | false => .ok s.disableTxStatProbes.bitmapZero
  | true => .ok s.enableTxStatProbes

def setBits (s : TxStat) : List Pid := (List.finRange pidMaxLimit).filter s.filter

def endList (entries : List (List Char)) (seq : TraceSeq) : Except Fault TraceSeq :=
  let seq := entries.foldl (fun seq entry => seq.printf (entry ++ [','])) seq
  if entries = [] then .ok (seq.puts "none\n".toList) else seq.nl

def txStatsFilterRead (s : TxStat) (seq : TraceSeq) : Except Fault TraceSeq :=
  endList (s.setBits.map fun n => Text.decimal n.val) seq

/-- The token loop of `tx_stats_filter_write`, with what follows the label
`err`. -/
def setTokens : List (List Char) → TxStat → Except Fault (Except Errno Unit × TxStat)
  | [], s => .ok (.ok (), s)
  | token :: rest, s =>
      if token = [] then setTokens rest s
      else
        match kstrtoul token with
        | .error _ => .ok (.error .einval, s.bitmapZero)
        | .ok pid => do
            let s ← s.bitmapSet pid
            setTokens rest s

def txStatsFilterWrite (dup : Bool) (data : List Char) (s : TxStat) :
    Except Fault (Except Errno Unit × TxStat) :=
  if ¬dup then .ok (.error .enomem, s)
  else do
    let text := strstrip data
    let s := s.disableTxStatProbes
    let (err, s) ← setTokens (strsep text) s
    match err with
    | .error errno => return (.error errno, s)
    | .ok () => return (.ok (), if s.txEnabled then s.enableTxStatProbes else s)

def entry (s : TxStat) (n : Pid) : List Char :=
  Text.decimal n.val ++ '=' :: Text.decimal (s.txStats n).toInt

def txStatsOutputRead (s : TxStat) (seq : TraceSeq) : Except Fault (TraceSeq × TxStat) := do
  let s := s.disableTxStatProbes
  let seq ← endList (s.setBits.map s.entry) seq
  return (seq, if s.txEnabled then s.enableTxStatProbes else s)

end TxStat

inductive TxOp where
  | writeEnable (ubuf : List Char)
  | readEnable
  | writeFilter (page dup : Bool) (ubuf : List Char)
  | readFilter
  | writeOutput
  | readOutput
  | send (probe : SendProbe) (current : Pid) (size : UInt64)
deriving DecidableEq, Repr

/-- The state after an operation. Writing the output is refused, and a send
does nothing unless the probe of its function is armed. -/
def TxStat.step (s : TxStat) : TxOp → Except Fault TxStat
  | .writeEnable ubuf => (enableWriteGeneric TxStat.txStatsEnableWrite ubuf s).map Prod.snd
  | .readEnable => .ok s
  | .writeFilter page dup ubuf =>
      (filterWriteGeneric (TxStat.txStatsFilterWrite dup) page ubuf s).map Prod.snd
  | .readFilter => (s.txStatsFilterRead .empty).map fun _ => s
  | .writeOutput => .ok s
  | .readOutput => (s.txStatsOutputRead .empty).map Prod.snd
  | .send probe current size => .ok (if s.armed probe then s.onSend probe current size else s)

end WPerf.Module
