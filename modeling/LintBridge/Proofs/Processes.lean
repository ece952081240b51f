import LintBridge.Proofs.Encoding
import LintBridge.Proofs.NormalForm
import LintBridge.Tool.Run

/-!
# LintBridge.Proofs.Processes

What a run of the linter makes of its process. A process is not started, ends while it has time, or
outlives its time, and `Call.Yields` tells for each of these what the run comes to and which signals
have been sent by then. A run without a timeout waits for its process, so that a process which never
ends by itself has to be given one.

The executable is looked for before there is any process. Where its path starts with the home
directory of somebody who has none, the run ends with a fault and starts nothing.

Main result: `Call.run_yields`. The fault is `Sample.run_homeless`.
-/

namespace LintBridge

open LintBridge.Number LintBridge.Text

/-- The status that a failure tells. -/
def LintError.status? : LintError → Option Int
  | exitedBadly _ status _ => some status
  | timedOut _ _ _ => some timeoutStatus
  | _ => none

/-- The path starts with the home directory of a user for whom none is known. -/
def Disk.LacksHome (disk : Disk) (p : Path) : Prop :=
  ∃ user rest, p = ⟨.relative, (.char '~' :: user) :: rest⟩ ∧ disk.homes.lookup user = none

/-- What is shown of the bytes that a process has written. -/
def shownBytes (bytes : List UInt8) : String :=
  String.ofList (Utf8.decodeLossy bytes)

/-- Texts are shown as they are, and so is a text in front of other bytes. -/
theorem shownBytes_encode_append (text : List Char) (rest : List UInt8) :
    shownBytes (Utf8.encode text ++ rest) = String.ofList text ++ shownBytes rest := by
  unfold shownBytes
  rw [Utf8.decodeLossy_encode_append, String.ofList_append]

namespace Child

variable {child : Child} {call : Call} {stdout stderr : List UInt8} {status : Int}
  {seconds : Binary64}

/-- The process ends by itself, and is given time to do so. A status that is unknown is one of
its own. -/
def EndsInTime (child : Child) (call : Call) (stdout stderr : List UInt8) (status : Int) : Prop :=
  (∃ status?, child = .ends stdout stderr status? ∧ status?.getD Call.unknownStatus = status) ∧
    call.hasTime = true

/-- The process is started and outlives the timeout: it does not end by itself, or is given no time
to do so. -/
def Outlives (child : Child) (call : Call) (seconds : Binary64) : Prop :=
  call.timeout = some seconds ∧ (∀ e, child ≠ .notStarted e) ∧
    ∀ stdout stderr status?, child = .ends stdout stderr status? → seconds.isPositive = false

/-- The process is still there after the grace period that follows a request to terminate. -/
def StaysOn (child : Child) : Prop :=
  ∃ onKill, child = .hangs .ignores onKill

/-- A process that does not end by itself has a timeout. -/
def Bounded (child : Child) (call : Call) : Prop :=
  ∀ onTerminate onKill, child = .hangs onTerminate onKill → ∃ seconds, call.timeout = some seconds

theorem EndsInTime.status_unique {stdout' stderr' : List UInt8} {status' : Int}
    (h : child.EndsInTime call stdout stderr status)
    (h' : child.EndsInTime call stdout' stderr' status') : status = status' := by
  obtain ⟨⟨_, rfl, hstatus⟩, -⟩ := h
  obtain ⟨⟨_, heq, hstatus'⟩, -⟩ := h'
  obtain ⟨-, -, rfl⟩ := Child.ends.inj heq
  exact hstatus.symm.trans hstatus'

theorem EndsInTime.not_outlives (h : child.EndsInTime call stdout stderr status) :
    ¬ child.Outlives call seconds := by
  intro houtlives
  obtain ⟨⟨_, rfl, -⟩, htime⟩ := h
  have hnone := houtlives.2.2 _ _ _ rfl
  rw [Call.hasTime, houtlives.1] at htime
  dsimp only at htime
  rw [hnone] at htime
  exact Bool.false_ne_true htime

end Child

namespace Call

variable {call : Call} {child : Child} {disk : Disk} {searchPath : String} {command : List Spelling}
  {signals : List Signal} {reply : Except LintError Completed} {t : Trace}

/-- The signals that are sent during a run, and what it comes to. A process that outlives the
timeout is asked to terminate, and killed if it stays on. -/
inductive Yields (call : Call) (child : Child) (command : List Spelling) :
    List Signal → Except LintError Completed → Prop where
  | completed {stdout stderr : List UInt8} {status : Int}
      (hends : child.EndsInTime call stdout stderr status) (hgood : status = 0 ∨ status = 1) :
      Yields call child command []
        (.ok ⟨command, status, shownBytes stdout, shownBytes stderr⟩)
  | exitedBadly {stdout stderr : List UInt8} {status : Int}
      (hends : child.EndsInTime call stdout stderr status) (hbad : ¬ (status = 0 ∨ status = 1)) :
      Yields call child command [] (.error (.exitedBadly command status (shownBytes stderr)))
  | notStarted {e : StartError} (hchild : child = .notStarted e) :
      Yields call child command [] (.error (.notStarted call.executable e.message))
  | terminated {seconds : Binary64} (houtlives : child.Outlives call seconds)
      (hgone : ¬ child.StaysOn) :
      Yields call child command [.terminate] (.error (.timedOut command seconds ""))
  | killed {seconds : Binary64} (houtlives : child.Outlives call seconds) (hstays : child.StaysOn) :
      Yields call child command [.terminate, .kill] (.error (.timedOut command seconds ""))

/-- There is a result just if the process has ended in time with a good status. -/
theorem Yields.isOk_iff (h : call.Yields child command signals reply) :
    (∃ c, reply = .ok c) ↔
      ∃ stdout stderr status, child.EndsInTime call stdout stderr status ∧
        (status = 0 ∨ status = 1) := by
  cases h with
  | completed hends hgood =>
    exact iff_of_true ⟨_, rfl⟩ ⟨_, _, _, hends, hgood⟩
  | exitedBadly hends hbad =>
    refine iff_of_false (by simp) ?_
    intro h
    obtain ⟨_, _, _, hends', hgood⟩ := h
    rw [hends'.status_unique hends] at hgood
    exact hbad hgood
  | notStarted hchild =>
    refine iff_of_false (by simp) ?_
    intro h
    obtain ⟨_, _, _, ⟨⟨_, hends, -⟩, -⟩, -⟩ := h
    rw [hchild] at hends
    cases hends
  | terminated houtlives _ | killed houtlives _ =>
    refine iff_of_false (by simp) ?_
    intro h
    obtain ⟨_, _, _, hends, -⟩ := h
    exact hends.not_outlives houtlives

/-- A process that outlives the timeout makes the run fail with a status of its own. -/
theorem Yields.status?_of_outlives (h : call.Yields child command signals reply)
    {seconds : Binary64} (houtlives : child.Outlives call seconds) :
    ∃ e, reply = .error e ∧ e.status? = some 124 := by
  cases h with
  | completed hends _ => exact absurd houtlives hends.not_outlives
  | exitedBadly hends _ => exact absurd houtlives hends.not_outlives
  | notStarted hchild => exact absurd hchild (houtlives.2.1 _)
  | terminated _ _ => exact ⟨_, rfl, rfl⟩
  | killed _ _ => exact ⟨_, rfl, rfl⟩

/-- A process that stays on is killed. -/
theorem Yields.signals_of_staysOn (h : call.Yields child command signals reply)
    {seconds : Binary64} (houtlives : child.Outlives call seconds) (hstays : child.StaysOn) :
    signals = [.terminate, .kill] := by
  cases h with
  | completed hends _ => exact absurd houtlives hends.not_outlives
  | exitedBadly hends _ => exact absurd houtlives hends.not_outlives
  | notStarted hchild => exact absurd hchild (houtlives.2.1 _)
  | terminated _ hgone => exact absurd hstays hgone
  | killed _ _ => rfl

/-! ### What comes of a process -/

theorem yields_ended (htime : call.hasTime = true) (stdout stderr : List UInt8)
    (status? : Option Int) :
    call.Yields (.ends stdout stderr status?) command [] (ended command stdout stderr status?) := by
  have hends : (Child.ends stdout stderr status?).EndsInTime call stdout stderr
      (status?.getD unknownStatus) := ⟨⟨_, rfl, rfl⟩, htime⟩
  have hgood : goodStatuses.contains (status?.getD unknownStatus) = true ↔
      status?.getD unknownStatus = 0 ∨ status?.getD unknownStatus = 1 := by
    simp [goodStatuses]
  unfold ended
  dsimp only
  split
  next hcontains => exact .completed hends (hgood.1 hcontains)
  next hcontains => exact .exitedBadly hends fun h => hcontains (hgood.2 h)

theorem yields_overran {seconds : Binary64} (houtlives : child.Outlives call seconds)
    (written : Option (List UInt8)) :
    call.Yields child command (call.overran command written child).signals
      (call.overran command written child).reply := by
  have hreply : (call.overran command written child).reply =
      .error (.timedOut command seconds "") := by
    simp [overran, houtlives.1]
  rw [hreply]
  show call.Yields child command (signalsFor child) _
  unfold signalsFor
  split
  next onKill => exact .killed houtlives ⟨onKill, rfl⟩
  next hchild =>
    refine .terminated houtlives ?_
    intro h
    obtain ⟨onKill, rfl⟩ := h
    exact hchild onKill rfl

theorem exists_timeout (h : ¬ call.hasTime = true) :
    ∃ seconds, call.timeout = some seconds ∧ seconds.isPositive = false := by
  unfold hasTime at h
  cases htimeout : call.timeout with
  | none => simp [htimeout] at h
  | some seconds =>
    rw [htimeout] at h
    exact ⟨seconds, rfl, by simpa using h⟩

/-- What is to be written to the process is made of characters. -/
def Writable (call : Call) : Prop :=
  ∀ text ∈ call.input, text.IsProper

theorem payload_cases (call : Call) :
    (call.Writable ∧ ∃ written, call.payload = .ok written) ∨
      (¬ call.Writable ∧ call.payload = .error .unencodable) := by
  unfold payload Writable
  cases call.input with
  | none => exact .inl ⟨by simp, _, rfl⟩
  | some text =>
    dsimp only
    cases hchars : text.chars? with
    | some chars => exact .inl ⟨by simpa using Letters.exists_chars?_iff.1 ⟨chars, hchars⟩, _, rfl⟩
    | none => exact .inr ⟨by simpa using Letters.chars?_eq_none_iff.1 hchars, rfl⟩

/-- Once the executable is found, the run comes to what its process yields. -/
theorem exists_trace (hbounded : child.Bounded call) {executable : Spelling}
    (hexecutable : Executable.resolve disk searchPath call.executable = .ok executable)
    (hwritten : (∃ written, call.payload = .ok written) ∨ ∃ e, child = .notStarted e) :
    ∃ t, call.run disk searchPath child = .ok t ∧ t.command = executable :: call.args ∧
      call.Yields child t.command t.signals t.reply := by
  unfold run
  rw [hexecutable, ok_bind]
  cases child with
  | notStarted e => exact ⟨_, rfl, rfl, .notStarted rfl⟩
  | ends stdout stderr status? =>
    obtain ⟨written, hwritten⟩ := hwritten.resolve_right (by simp)
    simp only [hwritten, ok_bind, pure_eq_ok]
    split
    next htime => exact ⟨_, rfl, rfl, yields_ended htime stdout stderr status?⟩
    next htime =>
      obtain ⟨seconds, htimeout, hnone⟩ := exists_timeout htime
      have houtlives : (Child.ends stdout stderr status?).Outlives call seconds :=
        ⟨htimeout, by simp, fun _ _ _ _ => hnone⟩
      exact ⟨_, rfl, rfl, yields_overran houtlives none⟩
  | hangs onTerminate onKill =>
    obtain ⟨written, hwritten⟩ := hwritten.resolve_right (by simp)
    simp only [hwritten, ok_bind, pure_eq_ok]
    obtain ⟨seconds, htimeout⟩ := hbounded _ _ rfl
    have houtlives : (Child.hangs onTerminate onKill).Outlives call seconds :=
      ⟨htimeout, by simp, by simp⟩
    exact ⟨_, rfl, rfl, yields_overran houtlives _⟩

/-- What cannot be written makes a fault come up when the process has been started. -/
theorem run_of_not_writable {executable : Spelling}
    (hexecutable : Executable.resolve disk searchPath call.executable = .ok executable)
    (hpayload : call.payload = .error .unencodable) (hstarted : ∀ e, child ≠ .notStarted e) :
    call.run disk searchPath child = .error .unencodable := by
  unfold run
  rw [hexecutable, ok_bind]
  cases child with
  | notStarted e => exact absurd rfl (hstarted e)
  | ends | hangs => simp only [hpayload, error_bind]

/-! ### Finding the executable -/

theorem lacksHome_iff_of_tilde {user : Spelling} {rest : List Spelling} :
    disk.LacksHome ⟨.relative, (.char '~' :: user) :: rest⟩ ↔ disk.homes.lookup user = none := by
  constructor
  · intro h
    obtain ⟨user', rest', heq, hnone⟩ := h
    obtain ⟨-, rfl⟩ := List.cons.inj (List.cons.inj (Path.mk.inj heq).2).1
    exact hnone
  · intro h
    exact ⟨user, rest, rfl, h⟩

theorem expandHome_cases (disk : Disk) {p : Path} (hp : p.NulFree) :
    (disk.LacksHome p ∧ disk.expandHome p = .error .unknownHome) ∨
      (¬ disk.LacksHome p ∧ ∃ q, disk.expandHome p = .ok q) := by
  obtain ⟨anchor, parts⟩ := p
  unfold Disk.expandHome
  dsimp only
  split
  next first rest =>
    split
    next user =>
      have hnul : .char '\x00' ∉ user := by
        have hclean := Path.nulFree_iff.1 hp (.char '~' :: user) (by simp)
        exact fun h => hclean (List.mem_cons_of_mem _ h)
      rw [if_neg (by simpa using hnul), lacksHome_iff_of_tilde]
      cases hhome : disk.homes.lookup user with
      | none => exact .inl ⟨rfl, rfl⟩
      | some home => exact .inr ⟨by simp, _, rfl⟩
    next hfirst =>
      refine .inr ⟨?_, _, rfl⟩
      intro h
      obtain ⟨user, rest', heq, -⟩ := h
      exact hfirst user (List.cons.inj (Path.mk.inj heq).2).1
  next hshape =>
    refine .inr ⟨?_, _, rfl⟩
    intro h
    obtain ⟨user, rest, heq, -⟩ := h
    obtain ⟨rfl, rfl⟩ := Path.mk.inj heq
    exact hshape _ _ rfl rfl

/-- An executable is found, or is taken as it is, unless its path starts with an unknown home. -/
theorem resolve_cases (disk : Disk) (searchPath : String) {executable : String}
    (hnul : '\x00' ∉ executable.toList) :
    (disk.LacksHome (.ofText executable) ∧
        Executable.resolve disk searchPath executable = .error .unknownHome) ∨
      (¬ disk.LacksHome (.ofText executable) ∧
        ∃ found, Executable.resolve disk searchPath executable = .ok found) := by
  have hclean : (Path.ofText executable).NulFree :=
    Path.nulFree_iff.2 (Path.clean_ofText (by simpa using hnul))
  unfold Executable.resolve
  rcases expandHome_cases disk hclean with ⟨hlacks, hexpand⟩ | ⟨hlacks, path, hexpand⟩
  · exact .inl ⟨hlacks, by rw [hexpand, error_bind]⟩
  · rw [hexpand, ok_bind]
    refine .inr ⟨hlacks, ?_⟩
    split
    · exact ⟨_, rfl⟩
    split
    · exact ⟨_, rfl⟩
    · exact ⟨_, rfl⟩

/-- What a run comes to, for every process that it can come to an end with. The executable and the
arguments are taken to hold no character U+0000, since no process can be given one.

* There is an outcome just if no unknown home stands in the way of finding the executable and the
  process, if it is started, can be written to; else the run ends with that fault.
* The outcome is a result just if the process has ended in time with status zero or one. Otherwise
  it is one of three failures: the process has not been started, has ended badly, or has outlived
  the timeout, for which the status 124 stands.
* A process is sent signals just if it outlives the timeout, first the one to terminate.
* What the process has written is shown completely, whatever of it can be read. -/
theorem run_yields (hexecutable : '\x00' ∉ call.executable.toList)
    (hbounded : child.Bounded call) :
    ((∃ t, call.run disk searchPath child = .ok t) ↔ ¬ disk.LacksHome (.ofText call.executable) ∧
      (call.Writable ∨ ∃ e, child = .notStarted e)) ∧
    (disk.LacksHome (.ofText call.executable) →
      call.run disk searchPath child = .error .unknownHome) ∧
    (¬ disk.LacksHome (.ofText call.executable) → ¬ call.Writable →
      (∀ e, child ≠ .notStarted e) → call.run disk searchPath child = .error .unencodable) ∧
    (∀ t, call.run disk searchPath child = .ok t →
      (∃ found, Executable.resolve disk searchPath call.executable = .ok found ∧
        t.command = found :: call.args) ∧
      call.Yields child t.command t.signals t.reply ∧
      ((∃ c, t.reply = .ok c) ↔ ∃ stdout stderr status,
        child.EndsInTime call stdout stderr status ∧ (status = 0 ∨ status = 1)) ∧
      ∀ seconds, child.Outlives call seconds → ∃ e, t.reply = .error e ∧ e.status? = some 124) ∧
    ∀ text rest, shownBytes (Utf8.encode text ++ rest) = String.ofList text ++ shownBytes rest := by
  rcases resolve_cases disk searchPath hexecutable with
    ⟨hlacks, hresolve⟩ | ⟨hlacks, found, hresolve⟩
  · have hrun : call.run disk searchPath child = .error .unknownHome := by
      unfold run
      rw [hresolve, error_bind]
    refine ⟨iff_of_false (by simp [hrun]) fun h => h.1 hlacks, fun _ => hrun,
      fun h => absurd hlacks h, ?_, shownBytes_encode_append⟩
    intro t ht
    rw [hrun] at ht
    cases ht
  by_cases hwritten : call.Writable ∨ ∃ e, child = .notStarted e
  · have hpayload : (∃ written, call.payload = .ok written) ∨ ∃ e, child = .notStarted e :=
      hwritten.imp_left fun hwritable =>
        (call.payload_cases.resolve_right fun h => h.1 hwritable).2
    obtain ⟨t, ht, hcommand, hyields⟩ := exists_trace hbounded hresolve hpayload
    refine ⟨iff_of_true ⟨t, ht⟩ ⟨hlacks, hwritten⟩, fun h => absurd h hlacks,
      fun _ hwritable hstarted => ?_, ?_, shownBytes_encode_append⟩
    · obtain ⟨e, he⟩ := hwritten.resolve_left hwritable
      exact absurd he (hstarted e)
    · intro t' ht'
      obtain rfl := Except.ok.inj (ht.symm.trans ht')
      exact ⟨⟨found, hresolve, hcommand⟩, hyields, hyields.isOk_iff,
        fun seconds houtlives => hyields.status?_of_outlives houtlives⟩
  · obtain ⟨hwritable, hstarted⟩ := not_or.1 hwritten
    have hpayload := (call.payload_cases.resolve_left fun h => hwritable h.1).2
    have hrun := run_of_not_writable hresolve hpayload (not_exists.1 hstarted)
    refine ⟨iff_of_false (by simp [hrun]) fun h => hwritten h.2, fun h => absurd h hlacks,
      fun _ _ _ => hrun, ?_, shownBytes_encode_append⟩
    intro t ht
    rw [hrun] at ht
    cases ht

end Call

namespace Sample

/-- A run with a timeout of one second. -/
def timed (executable : String) : Call where
  executable := executable
  args := ["--fix"]
  timeout := some (.ofInt 1)

/-- A process that has to be killed. -/
def stubborn : Child := .hangs .ignores .exits

theorem run_yields_stubborn :
    '\x00' ∉ (timed "nu-lint").executable.toList ∧ stubborn.Bounded (timed "nu-lint") ∧
      ∃ t e, (timed "nu-lint").run disk "" stubborn = .ok t ∧ t.signals = [.terminate, .kill] ∧
        t.reply = .error e ∧ e.status? = some 124 := by
  have hnul : '\x00' ∉ (timed "nu-lint").executable.toList := by decide
  have hbounded : stubborn.Bounded (timed "nu-lint") := fun _ _ _ => ⟨_, rfl⟩
  have houtlives : stubborn.Outlives (timed "nu-lint") (.ofInt 1) :=
    ⟨rfl, by simp [stubborn], by simp [stubborn]⟩
  -- the path starts with a name, and names of homes start with a tilde
  have hhome : ¬ disk.LacksHome (.ofText "nu-lint") := by
    have hname : Path.ofText "nu-lint" = ⟨.relative, ["nu-lint"]⟩ := by decide +kernel
    rw [hname]
    intro h
    obtain ⟨user, rest, heq, -⟩ := h
    have hfirst : ("nu-lint" : Spelling).head? = some (.char '~') :=
      congrArg List.head? (List.cons.inj (Path.mk.inj heq).2).1
    exact absurd hfirst (by decide +kernel)
  have hrun := @Call.run_yields (timed "nu-lint") stubborn disk "" hnul hbounded
  obtain ⟨t, ht⟩ := hrun.1.2 ⟨hhome, .inl (by simp [Call.Writable, timed])⟩
  obtain ⟨-, hyields, -, htimedOut⟩ := hrun.2.2.2.1 t ht
  obtain ⟨e, he, hstatus⟩ := htimedOut _ houtlives
  exact ⟨hnul, hbounded, t, e, ht, hyields.signals_of_staysOn houtlives ⟨_, rfl⟩, he, hstatus⟩

/-- The executable is in the home directory of somebody who has none. -/
theorem run_homeless : '\x00' ∉ (timed "~stranger/nu-lint").executable.toList ∧
    (timed "~stranger/nu-lint").run disk "" (.ends [] [] (some 0)) = .error .unknownHome := by
  have hnul : '\x00' ∉ (timed "~stranger/nu-lint").executable.toList := by decide
  have hpath : Path.ofText "~stranger/nu-lint" = ⟨.relative, ["~stranger", "nu-lint"]⟩ := by
    decide +kernel
  refine ⟨hnul, ?_⟩
  rcases Call.resolve_cases disk "" hnul with ⟨-, hresolve⟩ | ⟨hlacks, -⟩
  · unfold Call.run
    rw [hresolve, error_bind]
  · exact absurd ⟨"stranger".toList, ["nu-lint"], hpath, rfl⟩ hlacks

end Sample

end LintBridge
