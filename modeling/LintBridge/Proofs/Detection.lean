import LintBridge.Proofs.Agreement
import LintBridge.Proofs.Versions

/-!
# LintBridge.Proofs.Detection

How requests for the linter's version, or for the report format that goes with it, come to an end.
Whatever the linter says, the one who has asked it is answered, if only that the version is not
known. There is one exception: a reply that tells a version with too long a number
(`Version.Unreadable`) ends the request with a fault. The fault stays with the one who has met it.

Main result: `Schedule.detection_play`, for any requests in any order.
-/

namespace LintBridge

namespace Version

variable {r : Reply} {fault : Fault}

/-- The linter tells a version, but one of its numbers is too long to be read. -/
def Unreadable (r : Reply) : Prop :=
  ∃ completed, r = .ok completed ∧ completed.status = 0 ∧ Overlong completed.stdout.toList

theorem ofReply_eq_error_iff (hr : ∀ f, r ≠ .error (.fault f)) :
    ofReply r = .error fault ↔ Unreadable r ∧ fault = .oversizedInteger := by
  have hnot (h : ∀ completed, r = .ok completed → completed.status ≠ 0) : ¬ Unreadable r := by
    rintro ⟨completed, hcompleted, hstatus, -⟩
    exact h completed hcompleted hstatus
  cases r with
  | error failure =>
    cases failure with
    | lint e => exact iff_of_false (by simp [ofReply]) fun h => hnot (by simp) h.1
    | fault f => exact absurd rfl (hr f)
  | ok completed =>
    by_cases hstatus : completed.status = 0
    · have hunreadable : Unreadable (.ok completed) ↔ Overlong completed.stdout.toList := by
        simp [Unreadable, hstatus]
      rw [hunreadable, ← ofOutput_eq_error_iff]
      simp [ofReply, hstatus]
    · refine iff_of_false (by simp [ofReply, hstatus]) fun h => hnot (fun c hc => ?_) h.1
      obtain rfl := Except.ok.inj hc
      exact hstatus

/-- The version is learnt from every reply but the unreadable ones. -/
theorem exists_ofReply_iff (hr : ∀ f, r ≠ .error (.fault f)) :
    (∃ version, ofReply r = .ok version) ↔ ¬ Unreadable r := by
  cases h : ofReply r with
  | ok version =>
    refine iff_of_true ⟨version, rfl⟩ fun hunreadable => ?_
    simp [(ofReply_eq_error_iff hr).2 ⟨hunreadable, rfl⟩] at h
  | error f => exact iff_of_false (by simp) (not_not.2 ((ofReply_eq_error_iff hr).1 h).1)

end Version

/-- The reply to the question for the version, if a run gets one, is a failure of the linter or what
a run of it has printed. -/
def Move.Replies (settings : Settings) : Move → Prop
  | .next _ reply => ∀ f, reply (.forVersion settings) ≠ .error (.fault f)
  | _ => True

/-- An inquiry that has ended has learnt the version that is kept, or has met the fault that the
linter's answer has made come up. -/
theorem Inquiry.Learns.ended {s : Session} {answer : Except Fault (Option Version)} {asking : Bool}
    {direct : Prop} {step : Step (Progress Inquiry (Option Version))} {wanted : Wanted}
    {run : Inquiry → Run} {result : Except Failure Answer} (h : Learns s answer asking direct step)
    (hresult : (step.lift wanted.answer run).value = .ended result) :
    (∃ version, step.session.negotiation.known = some version ∧
      result = .ok (wanted.answer version)) ∨
    ∃ fault, answer = .error fault ∧ result = .error (.fault fault) := by
  unfold Step.lift at hresult
  dsimp only at hresult
  cases hv : step.value with
  | waiting i => simp [hv, Progress.map] at hresult
  | ended outcome =>
    rw [hv] at hresult
    obtain rfl := Progress.ended.inj hresult
    cases outcome with
    | ok version => exact .inl ⟨version, h.learnt version hv, rfl⟩
    | error failure =>
      obtain ⟨fault, hfault, rfl⟩ := h.failed failure hv
      exact .inr ⟨fault, hfault, rfl⟩

/-- Only inquiries want to know something about the version. -/
theorem Run.eq_inquiry {run : Run} {wanted : Wanted} (h : run.wanted? = some wanted) :
    ∃ i, run = .inquiry i wanted := by
  cases run with
  | inquiry i w => exact ⟨i, by rw [Option.some.inj h]⟩
  | _ => simp [wanted?] at h

/-- A request that wants to know something about the version makes an inquiry. -/
theorem Session.request_eq_inquire {s : Session} {request : Request} {wanted : Wanted}
    (hwanted : request.wanted? = some wanted) (hpinned : s.pinned = none) :
    s.request request = s.inquire wanted := by
  cases request with
  | version =>
    obtain rfl := Option.some.inj hwanted
    rfl
  | format =>
    obtain rfl := Option.some.inj hwanted
    simp [Session.request, Session.findFormat, hpinned]
  | _ => simp [Request.wanted?] at hwanted

namespace Schedule

variable {opened before : Session} {moves : List Move} {s : Schedule} {calls : List Call}
  {number : Nat} {wanted : Wanted} {reply : Call → Reply}

/-! ### Having a turn -/

/-- Request `number` has had its turn in the session `before`: it has been answered with the version
that is known, or it asks for it. -/
structure Served (before : Session) (number : Nat) (wanted : Wanted) (s : Schedule) : Prop where
  answered : ∀ version, before.negotiation.known = some version →
    (number, .ok (wanted.answer version)) ∈ s.ended
  asks : before.negotiation.known = none →
    s.waiting.lookup number = some (.inquiry (.asking (.forVersion before.settings)) wanted)

/-- Whoever has a turn is answered or asks. The queue `n` does not matter to that. -/
theorem served_record {n : Negotiation} (hknown : n.known = before.negotiation.known)
    (hnew : s.waiting.lookup number = none) :
    Served before number wanted (s.record number
      ((Inquiry.admitted before n.serve).lift wanted.answer (.inquiry · wanted))).1 := by
  refine ⟨fun version hv => result_record ?_, fun hunknown => ?_⟩
  · simp [Negotiation.serve, hknown, hv, Inquiry.admitted, Step.lift, Progress.map, Except.map]
  · simp [Negotiation.serve, hknown, hunknown, Inquiry.admitted, Step.lift, Progress.map,
      record, List.lookup_append, hnew]

/-- A request that finds nobody asking or queueing has its turn at once. -/
theorem served_start (htraced : Traced opened moves s) {request : Request}
    (hwanted : request.wanted? = some wanted) (hpinned : s.session.pinned = none)
    (hheld : s.session.negotiation.held = false) (hqueued : s.session.negotiation.queued = 0) :
    Served s.session s.issued wanted (s.move (.start request)).1 := by
  have hnew : s.waiting.lookup s.issued = none := by
    rw [List.lookup_eq_none_iff]
    intro e he
    have hlt : e.1 < s.issued :=
      htraced.apart.lt_issued (List.mem_append_left _ (List.mem_map_of_mem he))
    simpa using hlt.ne'
  have harrive : s.session.negotiation.arrive = s.session.negotiation.serve := by
    simp [Negotiation.arrive, Negotiation.isFree, hheld, hqueued]
  simp only [move, Session.request_eq_inquire hwanted hpinned, Session.inquire, Inquiry.start,
    harrive]
  exact served_record rfl hnew

/-- So does a run that queues, as soon as it may go on. -/
theorem served_next (hrun : s.waiting.lookup number = some (.inquiry .queueing wanted))
    (hgo : s.mayGoOn number (.inquiry .queueing wanted) = true) :
    Served s.session number wanted (s.move (.next number reply)).1 := by
  have hout : (s.resumed number).waiting.lookup number = none := by
    rw [List.lookup_eq_none_iff]
    intro e he
    have hother : e.1 ≠ number := by simpa using (List.mem_filter.1 he).2
    simpa using hother.symm
  simp only [move, hrun, hgo, if_true, Run.next, Inquiry.next, Negotiation.next]
  exact served_record rfl hout

/-! ### Getting the reply -/

/-- An inquiry that goes on learns the version, unless the reply makes a fault come up. -/
theorem Agreed.learns_next (h : Agreed opened moves s calls false) (hapart : s.Apart) {i : Inquiry}
    (hrun : s.waiting.lookup number = some (.inquiry i wanted))
    (hgo : s.mayGoOn number (.inquiry i wanted) = true) (reply : Call → Reply) :
    Inquiry.Learns s.session (Version.ofReply (reply (.forVersion opened.settings))) i.wait.asks
      (some wanted = some .version) (i.next s.session reply) := by
  obtain ⟨before, after, heq, -⟩ := hapart.exists_split hrun
  obtain ⟨request, -, hwanted, hproper⟩ := h.waiting (number, .inquiry i wanted) (by simp [heq])
  rw [← hwanted] at hproper
  have hfree : i = .queueing → s.session.negotiation.isFree = true := by
    rintro rfl
    simp only [mayGoOn, Run.isQueueing, decide_true, Bool.not_true, Bool.false_or,
      Bool.and_eq_true] at hgo
    exact hgo.1
  rw [← h.ground.settings]
  exact Inquiry.learns_next hproper hfree

/-- Whoever has asked has an answer with the reply, or a fault if the reply is unreadable. -/
theorem Agreed.replied (h : Agreed opened moves s calls false) (hapart : s.Apart) {call : Call}
    (hrun : s.waiting.lookup number = some (.inquiry (.asking call) wanted)) :
    (∀ fault, Version.ofReply (reply (.forVersion opened.settings)) = .error fault →
      (number, .error (.fault fault)) ∈ (s.move (.next number reply)).1.ended) ∧
    (∀ version, Version.ofReply (reply (.forVersion opened.settings)) = .ok version →
      (number, .ok (wanted.answer version)) ∈ (s.move (.next number reply)).1.ended) := by
  obtain ⟨before, after, heq, -⟩ := hapart.exists_split hrun
  obtain ⟨request, -, -, hproper⟩ :=
    h.waiting (number, .inquiry (.asking call) wanted) (by simp [heq])
  obtain rfl : call = .forVersion s.session.settings := hproper.1
  simp only [Schedule.move, hrun, mayGoOn, Run.isQueueing, reduceCtorEq, decide_false,
    Bool.not_false, Bool.true_or, if_true]
  rw [← h.ground.settings]
  refine ⟨fun fault hfault => result_record ?_, fun version hversion => result_record ?_⟩
  · simp [Run.next, Inquiry.next, hfault, Step.lift, Progress.map, Except.map]
  · simp [Run.next, Inquiry.next, hversion, Step.lift, Progress.map, Except.map]

/-! ### Any moves -/

/-- `result` is due to request `number`: it is the answer that goes with the version that is kept,
or the fault that the reply to the request's own question has made come up. -/
def IsDue (opened : Session) (moves : List Move) (s : Schedule) (number : Nat) (wanted : Wanted)
    (result : Except Failure Answer) : Prop :=
  (∃ version, s.session.negotiation.known = some version ∧ result = .ok (wanted.answer version)) ∨
    result = .error (.fault .oversizedInteger) ∧ ∃ reply, .next number reply ∈ moves ∧
      Version.Unreadable (reply (.forVersion opened.settings))

/-- What has been due still is after a move. -/
theorem IsDue.move {result : Except Failure Answer} (h : IsDue opened moves s number wanted result)
    (hagreed : Agreed opened moves s calls false) (hapart : s.Apart) (m : Move) :
    IsDue opened (moves ++ [m]) (s.move m).1 number wanted result := by
  rcases h with ⟨version, hknown, hresult⟩ | ⟨hresult, reply, hreply, hunreadable⟩
  · exact .inl ⟨version, (hagreed.remembers_move hapart m).known version hknown, hresult⟩
  · exact .inr ⟨hresult, reply, List.mem_append_left _ hreply, hunreadable⟩

/-- A request that a move ends is given its due. -/
theorem Agreed.isDue_of_move (h : Agreed opened moves s calls false)
    (htraced : Traced opened moves s) (hpinned : opened.pinned = none) {m : Move}
    (hm : m.Replies opened.settings)
    {result : Except Failure Answer} {request : Request}
    (hended : (number, result) ∈ (s.move m).1.ended) (hnew : (number, result) ∉ s.ended)
    (hrequest : (Move.requests (moves ++ [m]))[number]? = some request)
    (hwanted : request.wanted? = some wanted) :
    IsDue opened (moves ++ [m]) (s.move m).1 number wanted result := by
  have hunpinned : s.session.pinned = none := h.ground.pinned.trans hpinned
  revert hm hended hrequest
  refine move_cases (motive := fun m r => m.Replies opened.settings →
    (number, result) ∈ r.1.ended → (Move.requests (moves ++ [m]))[number]? = some request →
      IsDue opened (moves ++ [m]) r.1 number wanted result)
    ?start ?next ?stay ?dispose ?document m
  case start =>
    intro request' _ hended hrequest
    obtain ⟨_, hv, heq⟩ := (mem_ended_record hended).resolve_left hnew
    obtain ⟨rfl, rfl⟩ := Prod.mk.inj heq
    obtain rfl : request' = request := by
      simpa [requests_concat, htraced.issued, Move.request?] using hrequest
    rw [IsDue, session_record]
    rw [Session.request_eq_inquire hwanted hunpinned] at hv ⊢
    -- a request that begins has not asked anything yet, so any answer will do
    have hlearns : Inquiry.Learns s.session (.ok none) false True (Inquiry.start s.session) :=
      Inquiry.learns_start (.inl trivial)
    rcases hlearns.ended hv with hknown | ⟨fault, hfault, -⟩
    · exact .inl hknown
    · simp at hfault
  case next =>
    intro number' reply run hrun hgo hm hended hrequest
    obtain ⟨_, hv, heq⟩ := (mem_ended_record hended).resolve_left hnew
    obtain ⟨rfl, rfl⟩ := Prod.mk.inj heq
    obtain ⟨before, after, hsplit, -⟩ := htraced.apart.exists_split hrun
    obtain ⟨request', hrequest', hrun', -⟩ :=
      (h.concat (.next number reply)).waiting (number, run) (by simp [hsplit])
    obtain rfl : request' = request := Option.some.inj (hrequest'.symm.trans hrequest)
    obtain ⟨i, rfl⟩ := Run.eq_inquiry (hrun'.trans hwanted)
    rw [IsDue, session_record]
    rcases (h.learns_next htraced.apart hrun hgo reply).ended hv with hknown | ⟨fault, hfault, rfl⟩
    · exact .inl hknown
    · obtain ⟨hunreadable, rfl⟩ := (Version.ofReply_eq_error_iff hm).1 hfault
      exact .inr ⟨rfl, reply, by simp, hunreadable⟩
  case stay => exact fun _ _ _ _ hended => absurd hended hnew
  case dispose => exact fun _ hended => absurd hended hnew
  case document => exact fun _ _ _ hended => absurd hended hnew

/-- Every request that has ended has been given its due. -/
theorem isDue_play (hfresh : opened.inFlight = []) (hnew : opened.negotiation = {})
    (hpinned : opened.pinned = none) (moves : List Move)
    (hreplies : ∀ m ∈ moves, m.Replies opened.settings) :
    ∀ number result request wanted,
      (number, result) ∈ (({ session := opened } : Schedule).play moves).1.ended →
      (Move.requests moves)[number]? = some request → request.wanted? = some wanted →
        IsDue opened moves (({ session := opened } : Schedule).play moves).1 number wanted
          result := by
  revert hreplies
  refine play_induction (motive := fun moves s _ => (∀ m ∈ moves, m.Replies opened.settings) →
    ∀ number result request wanted, (number, result) ∈ s.ended →
      (Move.requests moves)[number]? = some request → request.wanted? = some wanted →
        IsDue opened moves s number wanted result) ?_ (fun moves m ih => ?_) moves
  · simp
  intro hreplies number result request wanted hended hrequest hwanted
  have hagreed := agreed_play hfresh hnew moves
  have htraced := traced_play hfresh moves
  by_cases hold : (number, result) ∈ (({ session := opened } : Schedule).play moves).1.ended
  · have hbegun : number < (Move.requests moves).length := by
      rw [← htraced.issued]
      exact htraced.apart.lt_issued (List.mem_append_right _ (List.mem_map_of_mem hold))
    rw [requests_concat, List.getElem?_append_left hbegun] at hrequest
    have hdue := ih (fun m' hm' => hreplies m' (List.mem_append_left _ hm')) number result request
      wanted hold hrequest hwanted
    exact hdue.move hagreed htraced.apart m
  · exact hagreed.isDue_of_move htraced hpinned (hreplies m (by simp)) hended hold hrequest hwanted

/-- How requests for the version or the format fare in a session that was `opened`. -/
structure Detection (opened : Session) (moves : List Move) (s : Schedule) : Prop where
  /-- A request that finds nobody asking or queueing is answered at once, or asks. -/
  starts : ∀ request wanted, request.wanted? = some wanted → s.session.negotiation.held = false →
    s.session.negotiation.queued = 0 →
      Served s.session s.issued wanted (s.move (.start request)).1
  /-- So is one that has queued, or does so, as soon as it may go on. -/
  turns : ∀ number wanted reply, s.waiting.lookup number = some (.inquiry .queueing wanted) →
    s.mayGoOn number (.inquiry .queueing wanted) = true →
      Served s.session number wanted (s.move (.next number reply)).1
  /-- Whoever has asked has an answer with any reply that is readable, if only that the version is
  not known, and a fault with one that is unreadable. -/
  replied : ∀ number call wanted reply,
    s.waiting.lookup number = some (.inquiry (.asking call) wanted) →
    Move.Replies opened.settings (.next number reply) →
      (¬ Version.Unreadable (reply (.forVersion opened.settings)) → ∃ version,
        Version.ofReply (reply (.forVersion opened.settings)) = .ok version ∧
          (number, .ok (wanted.answer version)) ∈ (s.move (.next number reply)).1.ended) ∧
      (Version.Unreadable (reply (.forVersion opened.settings)) →
        (number, .error (.fault .oversizedInteger)) ∈ (s.move (.next number reply)).1.ended)
  /-- A request that has ended has been answered with the version that is kept, or the reply to its
  own question was unreadable. -/
  ended : ∀ number result request wanted, (number, result) ∈ s.ended →
    (Move.requests moves)[number]? = some request → request.wanted? = some wanted →
      IsDue opened moves s number wanted result
  /-- If the version could not be found out, the format is the legacy one. -/
  legacy : ∀ number answer, (number, .ok answer) ∈ s.ended →
    (Move.requests moves)[number]? = some .format → s.session.negotiation.known = some none →
      answer = .format .legacy

/-- Whatever requests a session is given, in whatever order their runs go on, and whatever the
linter replies to the question for its version, whoever wants to know the version or the format is
told it, and unreadable replies are the only ones that end a request with a fault. -/
theorem detection_play {disk : Disk} {settings : Settings} {root : Option Path}
    {listed : Option (List Path)} {session : Session}
    (h : Session.opened disk settings root none listed = .ok session) (moves : List Move)
    (hreplies : ∀ m ∈ moves, m.Replies session.settings) :
    Detection session moves (({ session } : Schedule).play moves).1 := by
  obtain ⟨hfresh, hnew, hpinned⟩ : session.inFlight = [] ∧ session.negotiation = {} ∧
      session.pinned = none := by
    obtain ⟨workspace, -, rfl⟩ := Session.opened_eq_ok h
    exact ⟨rfl, rfl, rfl⟩
  have hended := isDue_play hfresh hnew hpinned moves hreplies
  have hagreed := agreed_play hfresh hnew moves
  have htraced := traced_play hfresh moves
  refine ⟨fun request wanted hwanted hheld hqueued => ?starts, fun _ _ _ => served_next,
    fun number call wanted reply hrun hreply => ?replied, hended,
    fun number answer hanswer hrequest hknown => ?legacy⟩
  case starts =>
    exact served_start htraced hwanted (hagreed.ground.pinned.trans hpinned) hheld hqueued
  case replied =>
    obtain ⟨hfault, hversion⟩ := hagreed.replied htraced.apart hrun
    refine ⟨fun hreadable => ?_, fun hunreadable => ?_⟩
    · obtain ⟨version, hv⟩ := (Version.exists_ofReply_iff hreply).2 hreadable
      exact ⟨version, hv, hversion version hv⟩
    · exact hfault _ ((Version.ofReply_eq_error_iff hreply).2 ⟨hunreadable, rfl⟩)
  case legacy =>
    rcases hended number (.ok answer) .format .format hanswer hrequest rfl with
      ⟨version, hv, hanswer⟩ | ⟨hfault, -⟩
    · obtain rfl := Option.some.inj (hknown.symm.trans hv)
      exact Except.ok.inj hanswer
    · simp at hfault

/-- In a session that has just been opened, a request ends with what the reply comes to. -/
theorem ended_alone {session : Session} {request : Request} (hnew : session.negotiation = {})
    (hpinned : session.pinned = none) (hwanted : request.wanted? = some wanted) :
    (({ session } : Schedule).play [.start request, .next 0 reply]).1.ended =
      [(0, orFault ((Version.ofReply (reply (.forVersion session.settings))).map
        wanted.answer))] := by
  let asking : Schedule := ⟨{ session with negotiation := { held := true } }, 1,
    [(0, .inquiry (.asking (.forVersion session.settings)) wanted)], []⟩
  have hstart : (({ session } : Schedule).move (.start request)).1 = asking := by
    simp [Schedule.move, Session.request_eq_inquire hwanted hpinned, Session.inquire,
      Inquiry.start, hnew, Negotiation.arrive, Negotiation.isFree, Negotiation.serve,
      Inquiry.admitted, Step.lift, Progress.map, record, asking]
  have hnext : (asking.move (.next 0 reply)).1.ended =
      [(0, orFault ((Version.ofReply (reply (.forVersion session.settings))).map
        wanted.answer))] := by
    cases hreply : Version.ofReply (reply (.forVersion session.settings)) <;>
      simp [asking, Schedule.move, mayGoOn, Run.isQueueing, Run.next, Inquiry.next, hreply,
        Step.lift, Progress.map, Except.map, record, resumed]
  simp only [play]
  rw [hstart]
  exact hnext

end Schedule

namespace Sample

/-- The version and the format are asked for, and the executable is missing. -/
def unanswered : List Move :=
  let missing : Call → Reply := fun call =>
    .error (.lint (.notStarted call.executable "No such file or directory"))
  [.start .version, .start .format, .next 0 missing, .next 1 missing]

/-- Both requests are answered: the version is not known, and the format is the legacy one. -/
theorem detection_play_unanswered : ∃ session,
    Session.opened { tree := .directory [], current := [], homes := [] } = .ok session ∧
      (∀ m ∈ unanswered, m.Replies session.settings) ∧
      Schedule.Detection session unanswered (({ session } : Schedule).play unanswered).1 ∧
      (({ session } : Schedule).play unanswered).1.ended =
        [(0, .ok (.version none)), (1, .ok (.format .legacy))] := by
  have hopened : Session.opened { tree := .directory [], current := [], homes := [] } =
      .ok { disk := { tree := .directory [], current := [], homes := [] } } := rfl
  have hreplies : ∀ m ∈ unanswered, m.Replies {} := by
    simp [unanswered, Move.Replies]
  exact ⟨_, hopened, hreplies, Schedule.detection_play hopened unanswered hreplies, rfl⟩

/-- A version whose first number has the given number of digits. -/
def versionText (digits : Nat) : List Char :=
  Version.mark ++ ([' '] ++ (List.replicate digits '1' ++ '.' :: (['0'] ++ '.' :: (['0'] ++ []))))

theorem ofOutput_versionText {n : Nat} (hn : Data.Json.maxIntDigits < n) :
    Version.ofOutput (versionText n) = .error .oversizedInteger := by
  have hones : Version.IsRow (List.replicate n '1') :=
    Version.isRow_replicate (Nat.zero_lt_of_lt hn) rfl
  have hzero : Version.IsRow ['0'] := Version.isRow_replicate Nat.one_pos rfl
  have hblank : ∀ c ∈ [' '], Text.isBlank c = true := by
    intro c hc
    obtain rfl := List.mem_singleton.1 hc
    decide
  have hrest : ∀ c ∈ ([] : List Char).head?, Text.isDecimalDigit c = false := by simp
  rw [versionText, Version.ofOutput_spelled hblank (List.cons_ne_nil _ _) hones hzero hzero hrest]
  exact if_pos (by simp [hn])

/-- A linter whose version has a number of one digit more than is read, and that has nothing to
report. -/
def longVersioned : Call → Reply := fun call =>
  .ok ⟨[], 0,
    if call.args = [("--version" : Spelling)] then String.ofList (versionText 4301) else "", ""⟩

theorem ofReply_longVersioned (settings : Settings) :
    Version.ofReply (longVersioned (Call.forVersion settings)) = .error .oversizedInteger := by
  have hargs : (Call.forVersion settings).args = [("--version" : Spelling)] := rfl
  unfold longVersioned Version.ofReply
  dsimp only
  rw [if_pos hargs, if_pos rfl, String.toList_ofList]
  exact ofOutput_versionText (by decide)

theorem replies_longVersioned (settings : Settings) (number : Nat) :
    Move.Replies settings (.next number longVersioned) := by
  intro f h
  simp [longVersioned] at h

/-- The linter tells a version that is unreadable, and a request for the version or the format is
not answered. -/
theorem detection_faults : ∃ session,
    Session.opened { tree := .directory [], current := [], homes := [] } = .ok session ∧
    Move.Replies session.settings (.next 0 longVersioned) ∧
      ∀ request ∈ [Request.version, Request.format],
        (({ session } : Schedule).play [.start request, .next 0 longVersioned]).1.ended =
          [(0, .error (.fault .oversizedInteger))] := by
  refine ⟨{ disk := { tree := .directory [], current := [], homes := [] } }, rfl,
    replies_longVersioned _ 0, fun request hrequest => ?_⟩
  obtain ⟨wanted, hwanted⟩ : ∃ wanted, request.wanted? = some wanted := by
    simp only [List.mem_cons, List.not_mem_nil, or_false] at hrequest
    rcases hrequest with rfl | rfl
    · exact ⟨.version, rfl⟩
    · exact ⟨.format, rfl⟩
  rw [Schedule.ended_alone rfl rfl hwanted, ofReply_longVersioned]
  rfl

end Sample

end LintBridge
