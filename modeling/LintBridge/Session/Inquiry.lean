import LintBridge.Session.Basic

/-!
# LintBridge.Session.Inquiry

Asking a session for the linter's version. An inquiry waits for its turn or for the linter.
-/

namespace LintBridge

/-- An inquiry that waits. -/
inductive Inquiry where
  /-- It waits for its turn. -/
  | queueing
  /-- It has the turn and waits for the linter. -/
  | asking (call : Call)
  deriving DecidableEq, Repr

namespace Inquiry

/-- The run of the linter that an inquiry waits for. -/
def call? : Inquiry → Option Call
  | queueing => none
  | asking call => some call

/-- What follows from how an inquiry fares. -/
def admitted (s : Session) : Admission × Negotiation → Step (Progress Inquiry (Option Version))
  | (.answered version, negotiation) => ⟨{ s with negotiation }, [], .ended (.ok version)⟩
  | (.queued, negotiation) => ⟨{ s with negotiation }, [], .waiting .queueing⟩
  | (.asks, negotiation) =>
    let call := Call.forVersion s.settings
    ⟨{ s with negotiation }, [.call call], .waiting (.asking call)⟩

/-- Begins an inquiry. -/
def start (s : Session) : Step (Progress Inquiry (Option Version)) :=
  admitted s s.negotiation.arrive

/-- Goes on with an inquiry: it is its turn, or the linter has replied. -/
def next (s : Session) (reply : Call → Reply) :
    Inquiry → Step (Progress Inquiry (Option Version))
  | queueing => admitted s s.negotiation.next
  | asking call =>
    match Version.ofReply (reply call) with
    | .ok version =>
      ⟨{ s with negotiation := s.negotiation.settle version }, [], .ended (.ok version)⟩
    | .error fault =>
      ⟨{ s with negotiation := s.negotiation.abandon }, [], .ended (.error fault)⟩

/-! ### How often an inquiry goes on -/

/-- A bound on how often an inquiry can go on. -/
def rank : Inquiry → Nat
  | queueing => 2
  | asking _ => 1

/-- Every step of an inquiry that does not end it lowers its rank. -/
theorem rank_next {s : Session} {reply : Call → Reply} {i j : Inquiry}
    (h : (i.next s reply).value = .waiting j) : j.rank < i.rank := by
  cases i with
  | queueing =>
    simp only [next, Negotiation.next, Negotiation.serve] at h
    split at h
    · simp [admitted] at h
    · simp only [admitted, Progress.waiting.injEq] at h
      simp [← h, rank]
  | asking call =>
    simp only [next] at h
    split at h <;> simp at h

end Inquiry

end LintBridge
