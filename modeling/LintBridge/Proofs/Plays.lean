import LintBridge.Proofs.Requests
import Mathlib.Data.List.Induction

/-!
# LintBridge.Proofs.Plays

What moves do to a schedule, and how something is proved of all moves: `Schedule.play_induction` is
the induction on them, with the last move taken off.
-/

namespace LintBridge

/-- The request that begins with a move. -/
def Move.request? : Move → Option Request
  | start request => some request
  | _ => none

/-- The requests that begin with some moves. Their numbers are their places in this list. -/
def Move.requests (moves : List Move) : List Request :=
  moves.filterMap request?

namespace Schedule

/-! ### Keeping a record of steps -/

section Record

variable (s : Schedule) (number : Nat) (step : Step (Progress Run Answer))

theorem session_record : (s.record number step).1.session = step.session := by
  unfold record
  dsimp only
  split <;> rfl

theorem issued_record : (s.record number step).1.issued = s.issued := by
  unfold record
  dsimp only
  split <;> rfl

theorem events_record : (s.record number step).2 = step.events := by
  unfold record
  dsimp only
  split <;> rfl

theorem numbers_record :
    ((s.record number step).1.waiting.map (·.1) ++ (s.record number step).1.ended.map (·.1)).Perm
      (number :: (s.waiting.map (·.1) ++ s.ended.map (·.1))) := by
  unfold record
  dsimp only
  split
  · simp only [List.map_append, List.map_cons, List.map_nil]
    rw [← List.append_assoc]
    exact List.perm_append_singleton _ _
  · simp only [List.map_append, List.map_cons, List.map_nil, List.append_assoc,
      List.singleton_append]
    exact List.perm_middle

end Record

/-- A run that waits after a step has waited before, or it is the one that the step has left. -/
theorem mem_waiting_record {s : Schedule} {number : Nat} {step : Step (Progress Run Answer)}
    {e : Nat × Run} (h : e ∈ (s.record number step).1.waiting) :
    e ∈ s.waiting ∨ ∃ run, step.value = .waiting run ∧ e = (number, run) := by
  unfold record at h
  dsimp only at h
  split at h
  · exact .inl h
  next run hv =>
    rcases List.mem_append.1 h with h | h
    · exact .inl h
    · exact .inr ⟨run, hv, List.mem_singleton.1 h⟩

/-- A request that has ended after a step has ended before, or the step has ended it. -/
theorem mem_ended_record {s : Schedule} {number : Nat} {step : Step (Progress Run Answer)}
    {e : Nat × Except Failure Answer} (h : e ∈ (s.record number step).1.ended) :
    e ∈ s.ended ∨ ∃ result, step.value = .ended result ∧ e = (number, result) := by
  unfold record at h
  dsimp only at h
  split at h
  next result hv =>
    rcases List.mem_append.1 h with h | h
    · exact .inl h
    · exact .inr ⟨result, hv, List.mem_singleton.1 h⟩
  · exact .inl h

/-- A run that waits is not touched by the step of another. -/
theorem waiting_record {s : Schedule} {number : Nat} {step : Step (Progress Run Answer)}
    {e : Nat × Run} (h : e ∈ s.waiting) : e ∈ (s.record number step).1.waiting := by
  unfold record
  dsimp only
  split
  · exact h
  · exact List.mem_append_left _ h

theorem ended_record {s : Schedule} {number : Nat} {step : Step (Progress Run Answer)}
    {e : Nat × Except Failure Answer} (h : e ∈ s.ended) :
    e ∈ (s.record number step).1.ended := by
  unfold record
  dsimp only
  split
  · exact List.mem_append_left _ h
  · exact h

/-- The result of a request that a step ends is recorded. -/
theorem result_record {s : Schedule} {number : Nat} {step : Step (Progress Run Answer)}
    {result : Except Failure Answer} (h : step.value = .ended result) :
    (number, result) ∈ (s.record number step).1.ended := by
  simp [record, h]

/-! ### One move -/

/-- What a move does is one of five things. -/
theorem move_cases {s : Schedule} {motive : Move → Schedule × List Event → Prop}
    (start : ∀ request, motive (.start request)
      (record { s with issued := s.issued + 1 } s.issued (s.session.request request)))
    (next : ∀ number reply run, s.waiting.lookup number = some run → s.mayGoOn number run →
      motive (.next number reply)
        ((s.resumed number).record number (run.next s.session reply)))
    (stay : ∀ number reply,
      (∀ run, s.waiting.lookup number = some run → ¬ s.mayGoOn number run) →
      motive (.next number reply) (s, []))
    (dispose : motive .dispose
      ({ s with session := s.session.dispose.session }, s.session.dispose.events))
    (document : ∀ name document, motive (.document name document)
      ({ s with session := s.session.setDocument name document }, []))
    (m : Move) : motive m (s.move m) := by
  cases m with
  | start request => exact start request
  | next number reply =>
    have hstay := stay number reply
    simp only [move]
    split
    next hrun => exact hstay fun run h => by simp [hrun] at h
    next run hrun =>
      split
      next hgo => exact next number reply run hrun hgo
      next hgo =>
        refine hstay fun run' h => ?_
        obtain rfl := Option.some.inj (hrun.symm.trans h)
        exact hgo
  | dispose => exact dispose
  | document name buffer => exact document name buffer

theorem ended_move {s : Schedule} (m : Move) {e : Nat × Except Failure Answer} (h : e ∈ s.ended) :
    e ∈ (s.move m).1.ended := by
  refine move_cases (motive := fun _ r => e ∈ r.1.ended) ?_ ?_ ?_ h (fun _ _ => h) m
  · exact fun _ => ended_record h
  · exact fun _ _ _ _ _ => ended_record h
  · exact fun _ _ _ => h

/-- A run that waits still does after the moves of others. -/
theorem waiting_move {s : Schedule} {m : Move} {e : Nat × Run} (h : e ∈ s.waiting)
    (hm : ∀ reply, m ≠ .next e.1 reply) : e ∈ (s.move m).1.waiting := by
  revert hm
  refine move_cases (motive := fun m r => (∀ reply, m ≠ .next e.1 reply) → e ∈ r.1.waiting)
    ?start ?next ?stay ?dispose ?document m
  case start => exact fun _ _ => waiting_record h
  case next =>
    intro number reply run _ _ hm
    have hother : e.1 ≠ number := fun heq => hm reply (by rw [heq])
    exact waiting_record (List.mem_filter.2 ⟨h, by simpa using hother⟩)
  case stay => exact fun _ _ _ _ => h
  case dispose => exact fun _ => h
  case document => exact fun _ _ _ => h

theorem requests_concat (moves : List Move) (m : Move) :
    Move.requests (moves ++ [m]) = Move.requests moves ++ m.request?.toList := by
  unfold Move.requests
  rw [List.filterMap_append]
  cases h : m.request? <;> simp [h]

/-! ### Several moves -/

theorem play_append (s : Schedule) (moves moves' : List Move) :
    s.play (moves ++ moves') =
      (((s.play moves).1.play moves').1, (s.play moves).2 ++ ((s.play moves).1.play moves').2) := by
  induction moves generalizing s with
  | nil => rfl
  | cons m rest ih => simp only [List.cons_append, play, ih, List.append_assoc]

theorem waiting_play {s : Schedule} {moves : List Move} {e : Nat × Run} (h : e ∈ s.waiting)
    (hm : ∀ reply, .next e.1 reply ∉ moves) : e ∈ (s.play moves).1.waiting := by
  induction moves generalizing s with
  | nil => exact h
  | cons m rest ih =>
    have hfirst : e ∈ (s.move m).1.waiting :=
      waiting_move h fun reply heq => hm reply (heq ▸ List.mem_cons_self)
    exact ih hfirst fun reply hmem => hm reply (List.mem_cons_of_mem m hmem)

/-- What holds at first, and after every move if it holds before, holds after any moves. -/
theorem play_induction {motive : List Move → Schedule → List Event → Prop} {s : Schedule}
    (start : motive [] s [])
    (move : ∀ moves m, motive moves (s.play moves).1 (s.play moves).2 →
      motive (moves ++ [m]) ((s.play moves).1.move m).1
        ((s.play moves).2 ++ ((s.play moves).1.move m).2)) (moves : List Move) :
    motive moves (s.play moves).1 (s.play moves).2 := by
  -- the last move is taken off, since what is to be shown is about the state before it
  induction moves using List.reverseRecOn with
  | nil => exact start
  | append_singleton moves m ih =>
    have hone : (s.play moves).1.play [m] = (s.play moves).1.move m := by
      simp [play]
    rw [play_append, hone]
    exact move moves m ih

end Schedule

end LintBridge
