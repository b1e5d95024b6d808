import StreamMerge.Session

/-!
# Moves

Everything that can happen to a session, one move at a time: the consumer and the holders of handles act, a
source changes from outside, the run is polled or given up. A poll is a move with a bound on its steps, so that
the points inside a poll are points between two moves as well. `Session.play` makes any list of moves; what
holds after every play holds for every order in which things can happen.
-/
namespace StreamMerge

/-- One move of a session with sources of the kind `u`. -/
inductive Move {α : Type} (u : Source α) where
  /-- The consumer asks for `n` more elements. -/
  | request (n : Nat)
  /-- The consumer cancels. -/
  | cancel
  /-- The consumer goes. -/
  | dismiss
  /-- The consumer takes the next delivery, if there is one. -/
  | receive
  /-- The consumer takes all deliveries that are there. -/
  | drain
  /-- A handle is taken from the consumer. -/
  | takeHandle
  /-- Somebody outside can cancel, too. -/
  | hold
  | cloneHandle (h : Nat)
  | cancelHandle (h : Nat)
  | dropHandle (h : Nat)
  /-- The source of the inlet `p` changes from outside. -/
  | adjust (p : InletId) (woken : u.State → Bool) (f : u.State → u.State)
  /-- The run is polled, for at most `fuel` steps. -/
  | poll (fuel : Nat)
  /-- The run is given up. -/
  | abandon
  /-- The consumer begins to collect everything in batches. -/
  | beginCollect (batch : Nat)
  /-- The collector is polled. -/
  | pollCollector

namespace Session

variable {α β : Type} {L : Strategy α β} {u : Source α}

/-- The session after a move. -/
def perform (s : Session L u) : Move u → Session L u
  | .request n => s.request n
  | .cancel => s.cancel
  | .dismiss => s.dismiss
  | .receive => s.receive.2
  | .drain => s.drain.2
  | .takeHandle => s.takeHandle.2
  | .hold => s.hold
  | .cloneHandle h => (s.cloneHandle h).2
  | .cancelHandle h => s.cancelHandle h
  | .dropHandle h => s.dropHandle h
  | .adjust p woken f => s.adjust p woken f
  | .poll fuel => s.poll fun _ => fuel
  | .abandon => s.abandon
  | .beginCollect batch => s.beginCollect batch
  | .pollCollector => s.pollCollector.2

/-- The session after a list of moves. -/
def play (s : Session L u) (moves : List (Move u)) : Session L u := moves.foldl perform s

@[simp] theorem play_nil (s : Session L u) : s.play [] = s := rfl

@[simp] theorem play_cons (s : Session L u) (mv : Move u) (moves : List (Move u)) :
    s.play (mv :: moves) = (s.perform mv).play moves := rfl

theorem play_append (s : Session L u) (before after : List (Move u)) :
    s.play (before ++ after) = (s.play before).play after := List.foldl_append

end Session
end StreamMerge
