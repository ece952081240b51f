import LintBridge.Proofs.Exclusion
import LintBridge.Proofs.Inquiries

/-!
# LintBridge.Proofs.Agreement

All requests to a session agree on the linter's version and on the report format. The invariant
(`Schedule.Agreed`) ties together the turn that is held, the answer that is kept, the runs that wait
and the runs of the linter that have been started: at most one run asks, nobody asks once the answer
is known, and whatever has been read, answered or started goes by the answer that is kept. As with
files in flight, a run that makes a step is taken out of the list and put back, so `Agreed` says
whether the run which is out is `asking`.

Main result: `Schedule.agreement_play`, for any requests in any order.
-/

namespace LintBridge

namespace Negotiation

variable {answer : Except Fault (Option Version)} {n n' : Negotiation} {asking asks : Bool}
  {k : Nat}

/-- `k` runs ask for the version: one if the turn is held, and then the version is not known. -/
structure AskedBy (n : Negotiation) (k : Nat) : Prop where
  held : k = n.held.toNat
  unknown : n.held = true → n.known = none

/-- A step of a run changes how many runs ask by what the run itself does. -/
theorem AskedBy.turns (h : n.AskedBy (k + asking.toNat)) (ht : Turns answer n asking n' asks) :
    n'.AskedBy (k + asks.toNat) := by
  obtain ⟨hheld, hunknown⟩ := h
  cases ht with
  | passes held known =>
    refine ⟨by rw [held]; exact hheld, ?_⟩
    rw [held, known]
    exact hunknown
  | begins free unknown held known =>
    refine ⟨?_, fun _ => known⟩
    rw [free] at hheld
    rw [held]
    simpa using hheld
  | settles told held known =>
    refine ⟨?_, fun hn => by simp [held] at hn⟩
    have hbound := n.held.toNat_le
    rw [held]
    simp only [Bool.toNat_true, Bool.toNat_false] at hheld ⊢
    omega
  | abandons told held known =>
    refine ⟨?_, fun hn => by simp [held] at hn⟩
    have hbound := n.held.toNat_le
    rw [held]
    simp only [Bool.toNat_true, Bool.toNat_false] at hheld ⊢
    omega

/-- While a run asks, the version is not known. -/
theorem AskedBy.unknown_of_asking (h : n.AskedBy (k + asking.toNat)) (hasking : asking = true) :
    n.held = true ∧ n.known = none := by
  have hheld : n.held = true := by
    have hk := h.held
    rw [hasking] at hk
    cases hn : n.held with
    | true => rfl
    | false => simp [hn] at hk
  exact ⟨hheld, h.unknown hheld⟩

/-- The answer is kept. -/
theorem AskedBy.known (h : n.AskedBy (k + asking.toNat)) (ht : Turns answer n asking n' asks)
    {version : Option Version} (hv : n.known = some version) : n'.known = some version := by
  cases ht with
  | passes held known => rw [known, hv]
  | begins free unknown held known => simp [unknown] at hv
  | settles told held known => simp [(h.unknown_of_asking rfl).2] at hv
  | abandons told held known => rw [known, hv]

/-- How often the version has been asked for, if no fault has come up: once it is asked for, and
once it is known. -/
def timesAsked (n : Negotiation) : Nat :=
  n.held.toNat + n.known.isSome.toNat

theorem AskedBy.timesAsked (h : n.AskedBy (k + asking.toNat)) (ht : Turns answer n asking n' asks)
    (hanswer : ∀ fault, answer ≠ .error fault) : n'.timesAsked = n.timesAsked + asks.toNat := by
  unfold Negotiation.timesAsked
  cases ht with
  | passes held known => simp [held, known]
  | begins free unknown held known => simp [free, unknown, held, known]
  | settles told held known =>
    obtain ⟨hheld, hknown⟩ := h.unknown_of_asking rfl
    simp [hheld, hknown, held, known]
  | abandons told held known => exact absurd told (hanswer _)

/-- The version becomes known by being told. -/
theorem AskedBy.told (h : n.AskedBy (k + asking.toNat)) (ht : Turns answer n asking n' asks)
    {version : Option Version} (hv : n'.known = some version) :
    n.known = some version ∨ asking = true ∧ answer = .ok version := by
  cases ht with
  | passes held known => exact .inl (known ▸ hv)
  | begins free unknown held known => simp [known] at hv
  | settles told held known =>
    obtain rfl := Option.some.inj (known.symm.trans hv)
    exact .inr ⟨rfl, told⟩
  | abandons told held known => exact .inl (known ▸ hv)

end Negotiation

/-! ### What stays right -/

namespace Session

/-- The session goes on, and what has been learnt about the version is kept. -/
structure Remembers (s t : Session) : Prop where
  ground : s.SameGround t
  known : ∀ version, s.negotiation.known = some version → t.negotiation.known = some version

variable {s t : Session} {format : Format} {direct : Prop}

theorem Remembers.inUse? (h : s.Remembers t) (hf : s.inUse? = some format) :
    t.inUse? = some format := by
  unfold Session.inUse? at hf ⊢
  rw [h.ground.pinned]
  cases hpinned : s.pinned with
  | some pinned => simpa [hpinned] using hf
  | none =>
    rw [hpinned, Option.none_or] at hf
    obtain ⟨version, hv, rfl⟩ := Option.map_eq_some_iff.1 hf
    simp [h.known version hv]

theorem Remembers.proper (h : s.Remembers t) {w : Wait} (hw : w.Proper s direct) :
    w.Proper t direct := by
  cases w with
  | other call => exact hw
  | turn => exact hw.imp_right h.ground.pinned.trans
  | version call =>
    obtain ⟨rfl, hdirect⟩ := hw
    exact ⟨by rw [h.ground.settings], hdirect.imp_right h.ground.pinned.trans⟩
  | report format call => exact ⟨h.inUse? hw.1, (Call.lints_ground h.ground).2 hw.2⟩

theorem Remembers.isRight (h : s.Remembers t) {w : Wanted} {a : Answer} (hw : w.IsRight s a) :
    w.IsRight t a := by
  cases w with
  | version =>
    obtain ⟨version, hknown, rfl⟩ := hw
    exact ⟨version, h.known version hknown, rfl⟩
  | format =>
    obtain ⟨format, huse, rfl⟩ := hw
    exact ⟨format, h.inUse? huse, rfl⟩

end Session

/-- If the linter is asked for its version, its reply makes no fault come up. -/
def Move.Tells (settings : Settings) : Move → Prop
  | .next _ reply => ∃ version, Version.ofReply (reply (.forVersion settings)) = .ok version
  | _ => True

namespace Schedule

variable {opened : Session} {moves : List Move} {s : Schedule} {calls : List Call} {asking : Bool}
  {number : Nat} {request : Request} {answer : Except Fault (Option Version)}

/-- The requests of a session that was `opened` agree on the version, while a run that is `asking`
or not makes a step and is not listed; `calls` are the runs of the linter that have been started. -/
structure Agreed (opened : Session) (moves : List Move) (s : Schedule) (calls : List Call)
    (asking : Bool) : Prop where
  ground : opened.SameGround s.session
  asked : s.session.negotiation.AskedBy
    (s.waiting.countP (·.2.wait.asks) + asking.toNat)
  waiting : ∀ e ∈ s.waiting, ∃ request, (Move.requests moves)[e.1]? = some request ∧
    e.2.wanted? = request.wanted? ∧ e.2.wait.Proper s.session (request.wanted? = some .version)
  started : ∀ c ∈ calls,
    c.asksVersion ∧ (Request.version ∈ Move.requests moves ∨ opened.pinned = none) ∨ c.fixes ∨
      ∃ format, s.session.inUse? = some format ∧ c.Lints opened format
  count : (∀ m ∈ moves, m.Tells opened.settings) →
    calls.countP Call.asksVersion = s.session.negotiation.timesAsked
  told : ∀ version, s.session.negotiation.known = some version → ∃ number reply,
    Move.next number reply ∈ moves ∧
      Version.ofReply (reply (.forVersion opened.settings)) = .ok version
  answers : ∀ e ∈ s.ended, ∃ request, (Move.requests moves)[e.1]? = some request ∧
    ((∀ m ∈ moves, m.Tells opened.settings) → ∀ w ∈ request.wanted?,
      ∃ a, e.2 = .ok a ∧ w.IsRight s.session a)

/-- Whatever agrees still does when something more is about to happen. -/
theorem Agreed.concat (h : Agreed opened moves s calls asking) (m : Move) :
    Agreed opened (moves ++ [m]) s calls asking := by
  have hrequests {n : Nat} {request : Request} (hr : (Move.requests moves)[n]? = some request) :
      (Move.requests (moves ++ [m]))[n]? = some request := by
    rw [requests_concat, List.getElem?_append_left (List.getElem?_eq_some_iff.1 hr).1]
    exact hr
  have htells (ht : ∀ m' ∈ moves ++ [m], m'.Tells opened.settings) :
      ∀ m' ∈ moves, m'.Tells opened.settings := fun m' hm' => ht m' (List.mem_append_left _ hm')
  refine ⟨h.ground, h.asked, fun e he => ?_, fun c hc => ?_, fun ht => h.count (htells ht),
    fun version hv => ?_, fun e he => ?_⟩
  · obtain ⟨request, hr, hrest⟩ := h.waiting e he
    exact ⟨request, hrequests hr, hrest⟩
  · refine (h.started c hc).imp_left (And.imp_right (Or.imp_left fun hmem => ?_))
    rw [requests_concat]
    exact List.mem_append_left _ hmem
  · obtain ⟨number, reply, hmem, htold⟩ := h.told version hv
    exact ⟨number, reply, List.mem_append_left _ hmem, htold⟩
  · obtain ⟨request, hr, hright⟩ := h.answers e he
    exact ⟨request, hrequests hr, fun ht => hright (htells ht)⟩

/-- What does not touch runs, answers and the negotiation does not matter. -/
theorem Agreed.of_same (h : Agreed opened moves s calls asking) {s' : Schedule}
    (hground : s.session.SameGround s'.session)
    (hn : s'.session.negotiation = s.session.negotiation) (hwaiting : s'.waiting = s.waiting)
    (hended : s'.ended = s.ended) : Agreed opened moves s' calls asking := by
  have hremembers : s.session.Remembers s'.session := ⟨hground, fun _ hv => hn ▸ hv⟩
  refine ⟨h.ground.trans hground, ?_, fun e he => ?_, fun c hc => ?_, ?_, ?_, fun e he => ?_⟩
  · rw [hn, hwaiting]
    exact h.asked
  · obtain ⟨request, hr, hwanted, hproper⟩ := h.waiting e (hwaiting ▸ he)
    exact ⟨request, hr, hwanted, hremembers.proper hproper⟩
  · refine (h.started c hc).imp_right (Or.imp_right ?_)
    rintro ⟨format, huse, hlints⟩
    exact ⟨format, hremembers.inUse? huse, hlints⟩
  · rw [hn]
    exact h.count
  · rw [hn]
    exact h.told
  · obtain ⟨request, hr, hright⟩ := h.answers e (hended ▸ he)
    refine ⟨request, hr, fun ht w hw => ?_⟩
    obtain ⟨a, ha, hw⟩ := hright ht w hw
    exact ⟨a, ha, hremembers.isRight hw⟩

/-- A waiting run goes on. -/
theorem Agreed.resume (h : Agreed opened moves s calls false) (hapart : s.Apart) {run : Run}
    (hrun : s.waiting.lookup number = some run) :
    Agreed opened moves (s.resumed number) calls run.wait.asks := by
  obtain ⟨before, after, heq, hres⟩ := hapart.exists_split hrun
  refine ⟨h.ground, ?_, fun e he => h.waiting e (List.mem_filter.1 he).1, h.started, h.count,
    h.told, h.answers⟩
  have hasked := h.asked
  rw [heq, List.countP_append, List.countP_cons] at hasked
  rw [hres, List.countP_append]
  have hone : (if run.wait.asks = true then 1 else 0) = run.wait.asks.toNat := by
    cases run.wait.asks <;> rfl
  have hsession : (s.resumed number).session = s.session := rfl
  simpa [hsession, hone, Nat.add_assoc] using hasked

theorem askers_record (s : Schedule) (number : Nat) (step : Step (Progress Run Answer)) :
    (s.record number step).1.waiting.countP (·.2.wait.asks) =
      s.waiting.countP (·.2.wait.asks) + (step.value.wait Run.wait).asks.toNat := by
  unfold Schedule.record
  dsimp only
  split
  next result hv => simp [hv, Progress.wait, Wait.asks]
  next run hv =>
    rw [hv, List.countP_append]
    cases hasks : run.wait.asks <;> simp [Progress.wait, hasks]

/-- What a step starts is what is waited for after it. -/
theorem calls_record {a : Stake} {step : Step (Progress Run Answer)}
    (hgoes : s.session.Goes a step.session step.events (step.value.stake Run.stake)) :
    (s.record number step).2.filterMap Event.call? =
      (step.value.wait Run.wait).call?.toList := by
  rw [events_record, hgoes.calls]
  cases step.value with
  | ended result => rfl
  | waiting run => rw [Progress.stake_waiting, Run.stake_call, ← Run.call?_wait]; rfl

/-- A step of a request keeps what has been learnt. -/
theorem Agreed.remembers (h : Agreed opened moves s calls asking) {wanted : Option Wanted}
    {step : Step (Progress Run Answer)} (hstep : s.session.Handles answer asking wanted step) :
    s.session.Remembers step.session :=
  ⟨hstep.inquires.ground, fun _ => h.asked.known hstep.inquires.turns⟩

/-- A waiting run that may go on does so for its request. -/
theorem Agreed.handles_next (h : Agreed opened moves s calls false) (hapart : s.Apart) {run : Run}
    (hrun : s.waiting.lookup number = some run) (hgo : s.mayGoOn number run = true)
    (reply : Call → Reply) : ∃ request, (Move.requests moves)[number]? = some request ∧
      s.session.Handles (Version.ofReply (reply (.forVersion opened.settings))) run.wait.asks
        request.wanted? (run.next s.session reply) := by
  obtain ⟨before, after, heq, -⟩ := hapart.exists_split hrun
  obtain ⟨request, hrequest, hwanted, hproper⟩ := h.waiting (number, run) (by simp [heq])
  have hfree : run.isQueueing = true → s.session.negotiation.isFree = true := by
    intro hqueueing
    simp only [mayGoOn, hqueueing, Bool.not_true, Bool.false_or, Bool.and_eq_true] at hgo
    exact hgo.1
  have hhandles := Run.handles_next reply (hwanted ▸ hproper) hfree
  rw [h.ground.settings, hwanted] at hhandles
  exact ⟨request, hrequest, hhandles⟩

/-- A run of the linter that the run of a request waits for is one of three kinds. -/
theorem started_of_proper {t : Session} {w : Wait} {c : Call} (hground : opened.SameGround t)
    (hrequest : (Move.requests moves)[number]? = some request)
    (h : w.Proper t (request.wanted? = some .version)) (hc : w.call? = some c) :
    c.asksVersion ∧ (Request.version ∈ Move.requests moves ∨ opened.pinned = none) ∨ c.fixes ∨
      ∃ format, t.inUse? = some format ∧ c.Lints opened format := by
  cases w with
  | other call => exact .inr (.inl (h c hc))
  | turn => simp [Wait.call?] at hc
  | version call =>
    refine .inl ⟨h.asksVersion hc, h.2.imp (fun hwanted => ?_) hground.pinned.symm.trans⟩
    rw [← Request.wanted?_eq_version hwanted]
    exact List.mem_of_getElem? hrequest
  | report format call =>
    obtain rfl : call = c := Option.some.inj hc
    exact .inr (.inr ⟨format, h.1, (Call.lints_ground hground).1 h.2⟩)

/-- A run that has made its step is listed again, or its request has ended. -/
theorem Agreed.record (h : Agreed opened moves s calls asking) {a : Stake}
    {step : Step (Progress Run Answer)}
    (hrequest : (Move.requests moves)[number]? = some request)
    (hgoes : s.session.Goes a step.session step.events (step.value.stake Run.stake))
    (hstep : s.session.Handles answer asking request.wanted? step)
    (hanswer : (∀ m ∈ moves, m.Tells opened.settings) → ∀ fault, answer ≠ .error fault)
    (htold : asking = true → ∀ version, answer = .ok version → ∃ number reply,
      Move.next number reply ∈ moves ∧
        Version.ofReply (reply (.forVersion opened.settings)) = .ok version) :
    Agreed opened moves (s.record number step).1
      (calls ++ (s.record number step).2.filterMap Event.call?) false := by
  have hremembers := h.remembers hstep
  obtain ⟨⟨hground, hturns, hproper⟩, hleft, hanswered⟩ := hstep
  rw [calls_record hgoes]
  refine ⟨?ground, ?asked, fun e he => ?waiting, fun c hc => ?started, fun ht => ?count,
    fun version hv => ?told, fun e he => ?answers⟩
  case ground =>
    rw [session_record]
    exact h.ground.trans hground
  case asked =>
    rw [session_record, askers_record]
    exact h.asked.turns hturns
  case waiting =>
    rw [session_record]
    rcases mem_waiting_record he with he | ⟨run, hv, rfl⟩
    · obtain ⟨request, hr, hwanted, hwait⟩ := h.waiting e he
      exact ⟨request, hr, hwanted, hremembers.proper hwait⟩
    · rw [hv] at hproper
      exact ⟨request, hrequest, hleft run hv, hproper⟩
  case started =>
    rw [session_record]
    rcases List.mem_append.1 hc with hc | hc
    · refine (h.started c hc).imp_right (Or.imp_right ?_)
      rintro ⟨format, huse, hlints⟩
      exact ⟨format, hremembers.inUse? huse, hlints⟩
    · exact started_of_proper (h.ground.trans hground) hrequest hproper (Option.mem_toList.1 hc)
  case count =>
    rw [session_record, List.countP_append, hproper.countP_call?, h.count ht]
    exact (h.asked.timesAsked hturns (hanswer ht)).symm
  case told =>
    rw [session_record] at hv
    rcases h.asked.told hturns hv with hv | ⟨hasking, hv⟩
    · exact h.told version hv
    · exact htold hasking version hv
  case answers =>
    rw [session_record]
    rcases mem_ended_record he with he | ⟨result, hv, rfl⟩
    · obtain ⟨request, hr, hright⟩ := h.answers e he
      refine ⟨request, hr, fun ht w hw => ?_⟩
      obtain ⟨a, ha, hw⟩ := hright ht w hw
      exact ⟨a, ha, hremembers.isRight hw⟩
    · refine ⟨request, hrequest, fun ht w hw => (hanswered result hv w hw).resolve_right ?_⟩
      rintro ⟨fault, hfault⟩
      exact hanswer ht fault hfault

/-- Every move keeps the requests in agreement. -/
theorem Agreed.move (h : Agreed opened moves s calls false) (htraced : Traced opened moves s)
    (m : Move) : Agreed opened (moves ++ [m]) (s.move m).1
      (calls ++ (s.move m).2.filterMap Event.call?) false := by
  have hmove := h.concat m
  revert hmove
  refine move_cases (motive := fun m r => Agreed opened (moves ++ [m]) s calls false →
    Agreed opened (moves ++ [m]) r.1 (calls ++ r.2.filterMap Event.call?) false)
    ?start ?next ?stay ?dispose ?document m
  case start =>
    intro request hmove
    have hbegun : Agreed opened (moves ++ [.start request]) { s with issued := s.issued + 1 }
        calls false := hmove.of_same (.refl s.session) rfl rfl rfl
    -- a request that begins has not asked anything yet, so any answer will do
    have hhandles : s.session.Handles (.ok none) false request.wanted?
        (s.session.request request) := s.session.handles_request request
    exact hbegun.record (by simp [requests_concat, htraced.issued, Move.request?])
      (s.session.quiet_request request).toGoes hhandles (by simp) (by simp)
  case next =>
    intro number reply run hrun hgo hmove
    obtain ⟨request, hrequest, hhandles⟩ := hmove.handles_next htraced.apart hrun hgo reply
    refine (hmove.resume htraced.apart hrun).record hrequest (htraced.apart.goes_next hrun reply)
      hhandles (fun ht fault hfault => ?_) fun _ version hv => ⟨number, reply, by simp, hv⟩
    obtain ⟨version, hv⟩ : Move.Tells opened.settings (.next number reply) := ht _ (by simp)
    simp [hv] at hfault
  case stay =>
    intro number reply _ hmove
    simpa using hmove
  case dispose =>
    intro hmove
    have hnone : s.session.dispose.events.filterMap Event.call? = [] := rfl
    rw [hnone, List.append_nil]
    exact hmove.of_same ⟨rfl, rfl, rfl, rfl, rfl⟩ rfl rfl rfl
  case document =>
    intro name document hmove
    rw [List.filterMap_nil, List.append_nil]
    exact hmove.of_same ⟨rfl, rfl, rfl, rfl, rfl⟩ rfl rfl rfl

/-- Every move keeps what has been learnt. -/
theorem Agreed.remembers_move (h : Agreed opened moves s calls false) (hapart : s.Apart)
    (m : Move) : s.session.Remembers (s.move m).1.session := by
  refine move_cases (motive := fun _ r => s.session.Remembers r.1.session)
    ?start ?next ?stay ?dispose ?document m
  case start =>
    intro request
    have hhandles : s.session.Handles (.ok none) false request.wanted?
        (s.session.request request) := s.session.handles_request request
    rw [session_record]
    exact h.remembers hhandles
  case next =>
    intro number reply run hrun hgo
    obtain ⟨request, -, hhandles⟩ := h.handles_next hapart hrun hgo reply
    rw [session_record]
    exact (h.resume hapart hrun).remembers hhandles
  case stay => exact fun _ _ _ => ⟨.refl _, fun _ hv => hv⟩
  case dispose => exact ⟨⟨rfl, rfl, rfl, rfl, rfl⟩, fun _ hv => hv⟩
  case document => exact fun _ _ => ⟨⟨rfl, rfl, rfl, rfl, rfl⟩, fun _ hv => hv⟩

/-! ### Any moves -/

theorem agreed_play (hfresh : opened.inFlight = []) (hnew : opened.negotiation = {})
    (moves : List Move) : Agreed opened moves (({ session := opened } : Schedule).play moves).1
      ((({ session := opened } : Schedule).play moves).2.filterMap Event.call?) false := by
  refine play_induction (motive := fun moves s events =>
    Agreed opened moves s (events.filterMap Event.call?) false) ?_ (fun moves m h => ?_) moves
  · refine ⟨.refl opened, ?_, by simp, by simp, fun _ => ?_, fun version hv => ?_, by simp⟩
    · rw [hnew]
      exact ⟨rfl, fun h => by simp at h⟩
    · rw [hnew]
      rfl
    · rw [hnew] at hv
      simp at hv
  · rw [List.filterMap_append]
    exact h.move (traced_play hfresh moves) m

/-- Once the version is known, it is kept whatever happens. -/
theorem Agreed.known_play (h : Agreed opened moves s calls false) (htraced : Traced opened moves s)
    {version : Option Version} (hv : s.session.negotiation.known = some version)
    (later : List Move) : (s.play later).1.session.negotiation.known = some version := by
  induction later generalizing moves s calls with
  | nil => exact hv
  | cons m rest ih =>
    have hknown := (h.remembers_move htraced.apart m).known version hv
    exact ih (h.move htraced m) (htraced.move m) hknown

/-- What the requests of a session that was `opened` agree on; `calls` are the runs of the linter
that have been started. -/
structure Agreement (opened : Session) (moves : List Move) (s : Schedule) (calls : List Call) :
    Prop where
  /-- The linter is asked for its version once at most. -/
  once : (∀ m ∈ moves, m.Tells opened.settings) → calls.countP Call.asksVersion ≤ 1
  /-- The version that is kept is what the linter has told. -/
  told : ∀ version, s.session.negotiation.known = some version → ∃ number reply,
    Move.next number reply ∈ moves ∧
      Version.ofReply (reply (.forVersion opened.settings)) = .ok version
  /-- It is kept for good. -/
  kept : ∀ version, s.session.negotiation.known = some version → ∀ later,
    (s.play later).1.session.negotiation.known = some version
  /-- Every request for the version is answered with it. -/
  version : (∀ m ∈ moves, m.Tells opened.settings) → ∀ n result,
    (Move.requests moves)[n]? = some .version → (n, result) ∈ s.ended →
      ∃ version, s.session.negotiation.known = some version ∧ result = .ok (.version version)
  /-- Every request for the format is answered with the one in use. -/
  format : (∀ m ∈ moves, m.Tells opened.settings) → ∀ n result,
    (Move.requests moves)[n]? = some .format → (n, result) ∈ s.ended →
      ∃ format, s.session.inUse? = some format ∧ result = .ok (.format format)
  /-- Every report is read in the format in use. -/
  reads : ∀ e ∈ s.waiting, ∀ lint ∈ e.2.lint?, ∀ format call,
    lint.stage = .running format call → s.session.inUse? = some format
  /-- Every run of the linter that lints has been asked to report in that format. -/
  lints : ∀ c ∈ calls, c.asksVersion ∨ c.fixes ∨ ∃ format, s.session.inUse? = some format ∧
    c.Lints opened format ∧ (["-f", format.name] : List Spelling) <+: c.args
  /-- A format that is pinned is in use, and nobody asks for the version but on request. -/
  pinned : ∀ format, opened.pinned = some format → s.session.inUse? = some format ∧
    (Request.version ∉ Move.requests moves → ∀ c ∈ calls, ¬ c.asksVersion)
  /-- Nobody waits for its turn in vain: some run asks, or the next in the queue may go on. -/
  turns : ∀ e ∈ s.waiting, e.2.isQueueing = true → (∃ e' ∈ s.waiting, e'.2.wait.asks = true) ∨
    ∃ e' ∈ s.waiting, e'.2.isQueueing = true ∧ s.mayGoOn e'.1 e'.2 = true

theorem Agreed.agreement (h : Agreed opened moves s calls false) (htraced : Traced opened moves s) :
    Agreement opened moves s calls := by
  have hrequested {n : Nat} {result : Except Failure Answer} {r : Request}
      (ht : ∀ m ∈ moves, m.Tells opened.settings) (hr : (Move.requests moves)[n]? = some r)
      (hended : (n, result) ∈ s.ended) :
      ∀ w ∈ r.wanted?, ∃ a, result = .ok a ∧ w.IsRight s.session a := by
    obtain ⟨request, hrequest, hright⟩ := h.answers _ hended
    obtain rfl := Option.some.inj (hrequest.symm.trans hr)
    exact hright ht
  refine ⟨fun ht => ?once, h.told, fun version hv later => h.known_play htraced hv later,
    fun ht n result hr hended => ?version, fun ht n result hr hended => ?format,
    fun e he lint hlint format call hstage => ?reads, fun c hc => ?lints,
    fun format hpinned => ?pinned, fun e he hqueueing => ?turns⟩
  case once =>
    rw [h.count ht, Negotiation.timesAsked]
    have hunknown := h.asked.unknown
    cases hheld : s.session.negotiation.held with
    | false => simpa using Bool.toNat_le _
    | true => simp [hunknown hheld]
  case version =>
    obtain ⟨a, rfl, version, hv, rfl⟩ := hrequested ht hr hended .version rfl
    exact ⟨version, hv, rfl⟩
  case format =>
    obtain ⟨a, rfl, format, hf, rfl⟩ := hrequested ht hr hended .format rfl
    exact ⟨format, hf, rfl⟩
  case reads =>
    obtain ⟨request, -, -, hproper⟩ := h.waiting e he
    have hwait : e.2.wait = .report format call := by
      rw [Run.wait_of_lint? hlint, Lint.wait, hstage]
    rw [hwait] at hproper
    exact hproper.1
  case lints =>
    refine (h.started c hc).imp And.left (Or.imp_right ?_)
    rintro ⟨format, huse, hlints⟩
    exact ⟨format, huse, hlints, hlints.args⟩
  case pinned =>
    refine ⟨?_, fun hnone c hc hasks => ?_⟩
    · simp [Session.inUse?, h.ground.pinned, hpinned]
    · rcases h.started c hc with ⟨-, hmem | hunpinned⟩ | hfixes | ⟨format, -, hlints⟩
      · exact hnone hmem
      · simp [hpinned] at hunpinned
      · simp [Call.asksVersion_of_fixes hfixes] at hasks
      · simp [Call.asksVersion_of_lints hlints] at hasks
  case turns =>
    cases hheld : s.session.negotiation.held with
    | true =>
      have hasked := h.asked.held
      rw [hheld, Bool.toNat_false, Nat.add_zero] at hasked
      refine .inl (List.countP_pos_iff.1 ?_)
      rw [hasked]
      exact Nat.one_pos
    | false =>
      have hsome : (s.waiting.find? (·.2.isQueueing)).isSome = true :=
        List.find?_isSome.2 ⟨e, he, hqueueing⟩
      obtain ⟨head, hhead⟩ := Option.isSome_iff_exists.1 hsome
      have hqueued : head.2.isQueueing = true := by simpa using List.find?_some hhead
      refine .inr ⟨head, List.mem_of_find?_eq_some hhead, hqueued, ?_⟩
      simp [mayGoOn, Negotiation.isFree, hheld, queueHead?, hhead]

/-- Whatever requests a session is given, in whatever order their runs go on, and whatever the
linter replies, they agree on the version and on the format. -/
theorem agreement_play {disk : Disk} {settings : Settings} {root : Option Path}
    {pinned : Option Format} {listed : Option (List Path)} {session : Session}
    (h : Session.opened disk settings root pinned listed = .ok session) (moves : List Move) :
    Agreement session moves (({ session } : Schedule).play moves).1
      ((({ session } : Schedule).play moves).2.filterMap Event.call?) := by
  obtain ⟨workspace, -, rfl⟩ := Session.opened_eq_ok h
  exact (agreed_play rfl rfl moves).agreement (traced_play rfl moves)

end Schedule

namespace Sample

/-- A linter that tells its version, whatever it is asked. -/
def telling (version : String) : Call → Reply :=
  fun _ => .ok ⟨[], 0, "nu-lint " ++ version, ""⟩

/-- The version is asked for while a file is to be linted, and the linter is replaced by another one
after it has told its version. -/
def questions : List Move :=
  [.start .version, .start (.lint ⟨.root, ["a.nu"]⟩), .start .format, .next 0 (telling "0.0.36"),
    .next 1 (telling "0.0.37"), .next 2 (telling "0.0.37")]

theorem tells_questions : ∀ m ∈ questions, m.Tells {} := by
  have hfirst : Move.Tells {} (.next 0 (telling "0.0.36")) := ⟨some ⟨0, 0, 36⟩, by decide +kernel⟩
  have hlater (number : Nat) : Move.Tells {} (.next number (telling "0.0.37")) :=
    ⟨some ⟨0, 0, 37⟩, by decide +kernel⟩
  simp only [questions, List.forall_mem_cons]
  exact ⟨trivial, trivial, trivial, hfirst, hlater 1, hlater 2, by simp⟩

/-- The requests agree on the version that has been told first. -/
theorem agreement_play_questions : ∃ session,
    Session.opened { tree := .directory [], current := [], homes := [] } = .ok session ∧
      (∀ m ∈ questions, m.Tells session.settings) ∧
      Schedule.Agreement session questions (({ session } : Schedule).play questions).1
        ((({ session } : Schedule).play questions).2.filterMap Event.call?) := by
  have hopened : Session.opened { tree := .directory [], current := [], homes := [] } =
      .ok { disk := { tree := .directory [], current := [], homes := [] } } := rfl
  exact ⟨_, hopened, tells_questions, Schedule.agreement_play hopened questions⟩

end Sample

end LintBridge
