import DocGrammar.Grammar.Evaluate

/-!
# What is written down

A traced parse writes down events one after the other and takes none back.  `State.Wrote` says which
have been written between two states; if the parse is not traced, it says that nothing has been.
Events are written by `State.noted` alone, so the other operations leave the trace as it is.
-/

set_option autoImplicit false

namespace DocGrammar
namespace State

variable {U : Type} {input : Array UInt8}

/-- The events have been written down between the two states, if the parse is traced. -/
def Wrote (s : State input U) (events : List Event) (s' : State input U) : Prop :=
  s'.trace = s.trace.map (· ++ events.toArray)

section

variable {s s' s'' : State input U} {events events' : List Event}

theorem wrote_nil (h : s'.trace = s.trace) : s.Wrote [] s' := by
  rw [Wrote, h]
  cases s.trace with
  | none => rfl
  | some old => simp

theorem Wrote.trans (h : s.Wrote events s') (h' : s'.Wrote events' s'') :
    s.Wrote (events ++ events') s'' := by
  rw [Wrote, h', h]
  cases s.trace with
  | none => rfl
  | some old => simp

end

theorem noted_wrote (s : State input U) (event : Unit → Event) :
    s.Wrote [event ()] (s.noted event) := by
  rcases htrace : s.trace with _ | old
  · simp [Wrote, noted, htrace]
  · simp [Wrote, noted, htrace]

theorem commitUnlessSilenced_trace (s : State input U) (f : Failure) :
    (s.commitUnlessSilenced f).trace = s.trace := by
  unfold commitUnlessSilenced
  split <;> rfl

theorem push_trace (s : State input U) (value : Value) : (s.push value).trace = s.trace := by
  unfold push
  split <;> rfl

theorem rejoin_trace (outer : Option Failure) (s : State input U) :
    (Evaluate.rejoin outer s).trace = s.trace := by
  unfold Evaluate.rejoin
  split <;> rfl

theorem failAt_wrote (s : State input U) (offset : Nat) (reason : Reason) :
    s.Wrote [.failure ⟨offset, input[offset]?, reason⟩] (s.failAt offset reason).2 := by
  rw [Wrote, failAt, commitUnlessSilenced_trace]
  exact s.noted_wrote _

end State
end DocGrammar
