import LintBridge.CommandLine.Program

/-!
# LintBridge.Proofs.Printing

What can be printed at a terminal. A line with a letter that is no character makes a fault come up,
and nothing happens after it. So a terminal gets through all events if it can print the lines for
each of them (`Terminal.Prints`), and otherwise breaks off on the way.
-/

namespace LintBridge

namespace Terminal

variable {t : Terminal} {lines : List Str} {events : List Event}

/-- Lines are printed one after another up to the first that cannot be printed. -/
theorem print_cases (lines : List Str) :
    ((∀ line ∈ lines, line.IsProper) ∧ (print lines).fault = none) ∨
      (¬ (∀ line ∈ lines, line.IsProper) ∧ (print lines).fault = some .unencodable) := by
  induction lines with
  | nil => exact .inl ⟨by simp, rfl⟩
  | cons line rest ih =>
    rw [List.forall_mem_cons, print]
    cases hchars : line.chars? with
    | none => exact .inr ⟨fun h => Letters.chars?_eq_none_iff.1 hchars h.1, rfl⟩
    | some chars =>
      have hline : line.IsProper := Letters.exists_chars?_iff.1 ⟨chars, hchars⟩
      simpa [hline] using ih

/-- The lines for all events can be printed. -/
def Prints (t : Terminal) (events : List Event) : Prop :=
  ∀ e ∈ events, ∀ line ∈ t.lines e, line.IsProper

instance (t : Terminal) (events : List Event) : Decidable (t.Prints events) :=
  inferInstanceAs (Decidable (∀ e ∈ events, ∀ line ∈ t.lines e, line.IsProper))

/-- What has happened does not matter for how events are printed. -/
theorem prints_after (t : Terminal) (e : Event) (events : List Event) :
    (t.after e).Prints events ↔ t.Prints events :=
  Iff.rfl

theorem prints_cons {e : Event} :
    t.Prints (e :: events) ↔ (∀ line ∈ t.lines e, line.IsProper) ∧ t.Prints events :=
  List.forall_mem_cons

/-- A terminal that can print everything gets through all events. -/
theorem run_of_prints (h : t.Prints events) : (t.run events).events = events ∧
    (t.run events).output.fault = none ∧
      (t.run events).terminal.board = events.foldl Board.after t.board := by
  induction events generalizing t with
  | nil => exact ⟨rfl, rfl, rfl⟩
  | cons e rest ih =>
    obtain ⟨hfirst, hrest⟩ := prints_cons.1 h
    have hfault : (print (t.lines e)).fault = none :=
      ((print_cases _).resolve_right fun hno => hno.1 hfirst).2
    obtain ⟨hevents, houtput, hboard⟩ := ih ((prints_after t e rest).2 hrest)
    simp only [run, hfault, Option.isSome_none, Bool.false_eq_true, if_false]
    exact ⟨by rw [hevents], houtput, hboard⟩

/-- Any other breaks off on the way. -/
theorem run_of_not_prints (h : ¬ t.Prints events) :
    (t.run events).events <+: events ∧ (t.run events).output.fault = some .unencodable := by
  induction events generalizing t with
  | nil => exact absurd (by simp [Prints]) h
  | cons e rest ih =>
    rw [prints_cons] at h
    unfold run
    rcases print_cases (t.lines e) with ⟨hfirst, hfault⟩ | ⟨-, hfault⟩
    · obtain ⟨hevents, houtput⟩ := ih fun hrest => h ⟨hfirst, (prints_after t e rest).1 hrest⟩
      simp only [hfault, Option.isSome_none, Bool.false_eq_true, if_false]
      exact ⟨List.cons_prefix_cons.2 ⟨rfl, hevents⟩, houtput⟩
    · rw [if_pos (by simp [hfault])]
      exact ⟨List.cons_prefix_cons.2 ⟨rfl, List.nil_prefix⟩, hfault⟩

end Terminal

namespace Program

variable {o : Options} {e : LintError}

/-- A warning that can be printed ends the program with the status of a failure. -/
theorem warned_of_message {message : String} (h : e.message = message) : warned o e = {
    printed := Terminal.printed (Notice.symbol o.emoji Notice.warn.mark ++ message).toList
    status := .ok failure } := by
  simp [warned, saying, h, Notice.line_ofString, Terminal.print_ofString]

/-- One that cannot ends it with a fault. -/
theorem warned_of_not_isProper (h : ¬ e.message.IsProper) :
    warned o e = broken (.fault .unencodable) := by
  have hline : (Notice.warn.line o.emoji e.message).chars? = none := by
    rw [Letters.chars?_eq_none_iff, Notice.line, Letters.isProper_append]
    exact fun hline => h hline.2
  simp [warned, saying, Terminal.print, hline, broken]

/-- Nothing is done before a warning that ends the program. -/
theorem events_warned (o : Options) (e : LintError) : (warned o e).events = [] := by
  unfold warned saying
  dsimp only
  split <;> rfl

end Program

end LintBridge
