import WPerf.Library.Runs

/-!
# The copy loop of an event instance

The callbacks that copy `trace_pipe` into the output file, on a context that
carries the requests the loop holds for it and the file operations done so far.
A step is the completion of a held request, with a result that the operating
system can give, or the expiry of the recorder.
-/

namespace WPerf.Recorder

set_option autoImplicit false

def uvEagain : Int := -11

def bufSize : Nat := 4096

inductive Request where
  | open
  | read (fd : Int) (len : Nat)
  | write (fd : Int) (len : Nat)
  | retry
deriving DecidableEq, Repr

inductive FileOp where
  | read (fd : Int) (bytes : List UInt8)
  | write (fd : Int) (bytes : List UInt8)
  | fsync (fd : Int)
  | close (fd : Int)
deriving DecidableEq, Repr

/-- A line on stderr. Its `%s` is `uv_strerror` of the result. -/
structure Message where
  text : String
  result : Int
deriving DecidableEq, Repr

structure EventCtx where
  fd0 : Int
  fd1 : Int
  buffer : List UInt8
  len : Nat
  pending : List Request
  files : List FileOp
  messages : List Message
deriving DecidableEq, Repr

namespace EventCtx

variable (event : EventCtx)

def submit (request : Request) : EventCtx := { event with pending := event.pending ++ [request] }

/-- `uv_timer_start`, which stops a timer that is running. -/
def timerStart : EventCtx := { event with pending := event.pending.erase .retry ++ [.retry] }

def fprintf (text : String) (result : Int) : EventCtx :=
  { event with messages := event.messages ++ [⟨text, result⟩] }

/-- The three calls have no callback, so they are done when they return. -/
def cleanup : EventCtx :=
  { event with
    files := event.files ++ [.close event.fd0, .fsync event.fd1, .close event.fd1] }

def onRetry : EventCtx := event.submit (.read event.fd0 event.len)

def onWrite (result : Int) : EventCtx :=
  if result < 0 then (event.fprintf "Write error: %s\n" result).cleanup
  else
    let event := { event with len := bufSize }
    event.submit (.read event.fd0 event.len)

def onRead (expired : Bool) (result : Int) : EventCtx :=
  if result ≤ 0 then
    if expired then event.cleanup
    else if result ≠ uvEagain then (event.fprintf "Read error: %s\n" result).cleanup
    else event.timerStart
  else
    let event := { event with len := result.toNat }
    event.submit (.write event.fd1 event.len)

def onOpen (result : Int) : EventCtx :=
  if result < 0 then event.fprintf "Open error: %s\n" result
  else
    let event := { event with fd0 := result }
    event.submit (.read event.fd0 event.len)

end EventCtx

/-- `buf` is what the allocated memory holds. -/
def initEventCtx (buf : List UInt8) : EventCtx where
  fd0 := -1
  fd1 := -1
  buffer := buf
  len := bufSize
  pending := []
  files := []
  messages := []

/-- What `record_events` does for an instance; `out` is the result of opening
its output. -/
def recordEvent (buf : List UInt8) (out : Int) : EventCtx :=
  { initEventCtx buf with fd1 := out }.submit .open

structure Copy where
  event : EventCtx
  expired : Bool
deriving DecidableEq, Repr

inductive CopyOp where
  | opened (result : Int)
  | read (fd : Int) (len : Nat) (result : Int) (bytes : List UInt8)
  | written (fd : Int) (len : Nat) (result : Int)
  | retried
  | expired
deriving DecidableEq, Repr

inductive Refusal where
  | notPending
  | impossible
deriving DecidableEq, Repr

/-- The results the operating system can give: a read returns the number of
its bytes, and neither a read nor a write exceeds its length. -/
def CopyOp.possible : CopyOp → Bool
  | .read _ len result bytes =>
      if 0 < result then decide (result = bytes.length ∧ bytes.length ≤ len) else bytes.isEmpty
  | .written _ len result => decide (result ≤ len)
  | _ => true

namespace EventCtx

variable (event : EventCtx)

def finish (request : Request) : Except Refusal EventCtx :=
  if request ∈ event.pending then .ok { event with pending := event.pending.erase request }
  else .error .notPending

def fill (fd : Int) (bytes : List UInt8) : EventCtx :=
  { event with
    buffer := bytes ++ event.buffer.drop bytes.length
    files := event.files ++ [.read fd bytes] }

def drain (fd : Int) (len : Nat) (result : Int) : EventCtx :=
  { event with files := event.files ++ [.write fd ((event.buffer.take len).take result.toNat)] }

end EventCtx

namespace Copy

def start (buf : List UInt8) (out : Int) : Copy := ⟨recordEvent buf out, false⟩

def step (s : Copy) (op : CopyOp) : Except Refusal Copy :=
  if op.possible then
    match op with
    | .opened result => do
        let event ← s.event.finish .open
        return { s with event := event.onOpen result }
    | .read fd len result bytes => do
        let event ← s.event.finish (.read fd len)
        return { s with event := (event.fill fd bytes).onRead s.expired result }
    | .written fd len result => do
        let event ← s.event.finish (.write fd len)
        return { s with event := (event.drain fd len result).onWrite result }
    | .retried => do
        let event ← s.event.finish .retry
        return { s with event := event.onRetry }
    | .expired => .ok { s with expired := true }
  else .error .impossible

end Copy

end WPerf.Recorder
