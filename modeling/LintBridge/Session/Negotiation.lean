import LintBridge.Tool.Command
import LintBridge.Tool.Version

/-!
# LintBridge.Session.Negotiation

Finding out the linter's version, at most once. Whoever wants to know it needs a turn: the first one
asks the linter and keeps the turn until it has answered, the others queue and are served in the
order in which they came. The answer is kept, even if it is that the version is unknown; only a
fault leaves the question open, and then the next in the queue asks again.
-/

namespace LintBridge

/-- The state of the negotiation. `known` is the answer, once there is one. -/
structure Negotiation where
  held : Bool := false
  queued : Nat := 0
  known : Option (Option Version) := none
  deriving DecidableEq, Repr

/-- How somebody who wants to know the version fares. -/
inductive Admission where
  /-- The version is known. -/
  | answered (version : Option Version)
  /-- It has to wait for its turn. -/
  | queued
  /-- It has to ask the linter. -/
  | asks
  deriving DecidableEq, Repr

namespace Negotiation

/-- The version, as far as it is known. -/
def version (n : Negotiation) : Option Version :=
  n.known.join

/-- Whether the next in the queue may have its turn. -/
def isFree (n : Negotiation) : Bool :=
  !n.held

/-- Somebody has a turn. -/
def serve (n : Negotiation) : Admission × Negotiation :=
  match n.known with
  | some version => (.answered version, n)
  | none => (.asks, { n with held := true })

/-- Somebody comes. No one is served before those who are already in the queue. -/
def arrive (n : Negotiation) : Admission × Negotiation :=
  if n.isFree && n.queued = 0 then n.serve
  else (.queued, { n with queued := n.queued + 1 })

/-- The first in the queue has its turn. -/
def next (n : Negotiation) : Admission × Negotiation :=
  { n with queued := n.queued - 1 }.serve

/-- The one who asked the linter has learnt the version. -/
def settle (n : Negotiation) (version : Option Version) : Negotiation :=
  { n with held := false, known := some version }

/-- The one who asked the linter has met a fault. -/
def abandon (n : Negotiation) : Negotiation :=
  { n with held := false }

end Negotiation

/-- The version in the reply to the question for it. A linter that fails has no known version. -/
def Version.ofReply : Reply → Except Fault (Option Version)
  | .ok c => if c.status = 0 then Version.ofOutput c.stdout.toList else .ok none
  | .error (.lint _) => .ok none
  | .error (.fault f) => .error f

/-- The question for the version. -/
def Call.forVersion (settings : Settings) : Call where
  executable := settings.executablePath
  args := ["--version"]
  timeout := settings.timeoutSeconds

end LintBridge
