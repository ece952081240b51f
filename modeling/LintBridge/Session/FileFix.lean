import LintBridge.Session.Basic

/-!
# LintBridge.Session.FileFix

Having the linter fix a file on the disk. As with linting, a request is refused while a run for the
file is in flight, and a failure of the linter is made known.
-/

namespace LintBridge

/-- A run that fixes a file and waits for the linter. -/
structure FileFix where
  file : Path
  call : Call
  deriving DecidableEq, Repr

namespace FileFix

/-- Begins a request to fix a file. -/
def start (s : Session) (p : Path) : Step (Progress FileFix Bool) :=
  match s.disk.canonical p with
  | .error fault => ⟨s, [], .ended (.error fault)⟩
  | .ok file =>
    if s.inFlight.contains file then ⟨s, [], .ended (.ok false)⟩
    else
      match Command.fix s.disk s.settings s.workspace file with
      | .error fault => ⟨s, [], .ended (.error fault)⟩
      | .ok command =>
        let call := command.call s.settings
        ⟨s.enter file, [.call call], .waiting ⟨file, call⟩⟩

/-- Goes on with a run: the linter has replied. -/
def next (s : Session) (reply : Call → Reply) (fix : FileFix) : Step (Progress FileFix Bool) :=
  let s := s.leave fix.file
  match reply fix.call with
  | .ok _ => ⟨s, [], .ended (.ok true)⟩
  | .error (.lint e) => ⟨s, Session.failureEvents fix.file e true, .ended (.ok false)⟩
  | .error (.fault f) => ⟨s, [], .ended (.error f)⟩

end FileFix

end LintBridge
