import LintBridge.Session.Run

/-!
# LintBridge.Session.Schedule

A session in which several requests are carried out at a time. A run that waits goes on when what it
waits for has come about; which of several runs goes on first is open, but for turns, which are
given in the order in which runs began to queue. A `Schedule` is moved on one step at a time, so
whatever holds after every `Move` holds however the runs are interleaved.
-/

namespace LintBridge

/-- A session, the runs that wait in it, and the requests that have ended. Requests are told apart
by numbers, given in the order in which they begin. The runs are listed in the order in which they
began to wait. -/
structure Schedule where
  session : Session
  issued : Nat := 0
  waiting : List (Nat × Run) := []
  ended : List (Nat × Except Failure Answer) := []

/-- Something that happens in a session. -/
inductive Move where
  /-- A request begins. -/
  | start (request : Request)
  /-- A run goes on. If it waits for the linter, `reply` is the reply. -/
  | next (number : Nat) (reply : Call → Reply)
  /-- The session is disposed of. -/
  | dispose
  /-- A document is opened, or its text changes. -/
  | document (name : String) (document : Buffer)

namespace Schedule

/-- The run that has queued longest for its turn. -/
def queueHead? (s : Schedule) : Option Nat :=
  (s.waiting.find? (·.2.isQueueing)).map (·.1)

/-- Whether a waiting run may go on. The linter may reply at any time, and a pause may be over at
any time; a turn has to be free, and goes to the run that has queued longest. -/
def mayGoOn (s : Schedule) (number : Nat) (run : Run) : Bool :=
  !run.isQueueing || (s.session.negotiation.isFree && s.queueHead? = some number)

/-- The schedule after a step of a request. -/
def record (s : Schedule) (number : Nat) (step : Step (Progress Run Answer)) :
    Schedule × List Event :=
  let s := { s with session := step.session }
  match step.value with
  | .ended result => ({ s with ended := s.ended ++ [(number, result)] }, step.events)
  | .waiting run => ({ s with waiting := s.waiting ++ [(number, run)] }, step.events)

/-- The schedule without a waiting run. -/
def resumed (s : Schedule) (number : Nat) : Schedule :=
  { s with waiting := s.waiting.filter (·.1 ≠ number) }

/-- The schedule after a move, and the events of the move. A run that may not go on stays as it
is. -/
def move (s : Schedule) : Move → Schedule × List Event
  | .start request =>
    record { s with issued := s.issued + 1 } s.issued (s.session.request request)
  | .next number reply =>
    match s.waiting.lookup number with
    | none => (s, [])
    | some run =>
      if s.mayGoOn number run then
        (s.resumed number).record number (run.next s.session reply)
      else (s, [])
  | .dispose =>
    let step := s.session.dispose
    ({ s with session := step.session }, step.events)
  | .document name document =>
    ({ s with session := s.session.setDocument name document }, [])

/-- The schedule after several moves, and their events. -/
def play (s : Schedule) : List Move → Schedule × List Event
  | [] => (s, [])
  | m :: rest =>
    let (s, events) := s.move m
    let (s, later) := s.play rest
    (s, events ++ later)

/-! ### Going on as far as the linter replies -/

/-- Whether a waiting run can go on while the linter holds some replies back. -/
def isReady (s : Schedule) (held : Call → Bool) (entry : Nat × Run) : Bool :=
  s.mayGoOn entry.1 entry.2 && !entry.2.call?.any held

/-- A bound on how often the runs can go on. -/
def rank (s : Schedule) : Nat :=
  s.waiting.foldl (fun bound entry => bound + entry.2.rank) 0

/-- The head of the queue, if it has a turn that no run in `ready` is about to take. -/
def woken (s : Schedule) (ready : List Nat) : List Nat :=
  match s.queueHead? with
  | some number => if s.session.negotiation.isFree && !ready.contains number then [number] else []
  | none => []

/-- Lets the runs in `ready` go on one after another, each as far as it can, and after them those
that get their turn by that. -/
def goOn (tool : Call → Reply) (held : Call → Bool) :
    Nat → Schedule → List Nat → Schedule × List Event
  | 0, s, _ | _, s, [] => (s, [])
  | bound + 1, s, number :: ready =>
    match s.waiting.find? (·.1 = number) with
    | none => goOn tool held bound s ready
    | some entry =>
      if s.isReady held entry then
        let (s, events) := s.move (.next number tool)
        let (s, later) := goOn tool held bound s (number :: ready ++ s.woken (number :: ready))
        (s, events ++ later)
      else goOn tool held bound s ready

/-- Lets every run go on until all wait for replies that the linter holds back. -/
def settle (s : Schedule) (tool : Call → Reply) (held : Call → Bool) : Schedule × List Event :=
  let ready := (s.waiting.filter (s.isReady held)).map (·.1)
  goOn tool held (3 * s.rank + ready.length) s ready

end Schedule

end LintBridge
