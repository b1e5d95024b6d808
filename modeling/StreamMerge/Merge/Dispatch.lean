import StreamMerge.Merge

/-!
# Handling an event

An inlet event leads to one transition, of the strategy or by the end policy. Its requests take effect
together, or not at all when it broke the rule of one emission.
-/
namespace StreamMerge.Merge

variable {α β : Type} {L : Strategy α β} {u : Source α}

/-- The transition that makes the given requests and stays in the present state. -/
def remain (m : Merge L u) (actions : List (Action β L.Key)) : Transition β L.Key L.State L.Memory :=
  ⟨actions, m.state, m.memory⟩

/-- The transition for an event of the inlet `p`. -/
def transition (m : Merge L u) (p : InletId) (a : Arrival α) : Transition β L.Key L.State L.Memory :=
  match a, m.policy with
  | .element x, _ => L.onElement m.memory m.inlets.length m.state p x
  | .completed, .exhaust => m.remain []
  | .completed, .eager => m.remain [.complete]
  | .completed, .custom key => L.onEnd m.memory m.inlets.length key m.state p
  | .failed c, .custom key => L.onFailure m.memory m.inlets.length key m.state p c
  | .failed c, _ => m.remain [.fail (.sourceFailed c)]

/-- The journal entry of a transition to `next`, if it was the strategy's. -/
def handling (m : Merge L u) (p : InletId) (a : Arrival α) (next : L.State) : Option (Entry L) :=
  match a, m.policy with
  | .element x, _ => some (.onElement p x m.state next)
  | .completed, .custom key => some (.onEnd p key m.state next)
  | .failed c, .custom key => some (.onFailure p key c m.state next)
  | _, _ => none

/-- Releases an inlet at the request of a transition; an inlet that does not exist is only logged. -/
def releaseNamed (m : Merge L u) (p : InletId) : Merge L u :=
  if p < m.inlets.length then m.release p else m.log (.unknownRelease p)

/-- Follows another end policy, if there is one to follow. -/
def follow (m : Merge L u) : Option (EndPolicy L.Key) → Merge L u
  | none => m
  | some policy => { m with policy }.log (.policyReplaced policy.label)

/-- Keeps an emitted element for delivery. -/
def emit (m : Merge L u) : Option β → Merge L u
  | none => m
  | some y => { m with unsent := some y }.note (.emitted y)

/-- Goes on after a transition, or ends the run. -/
def close (m : Merge L u) : Option Closing → Merge L u
  | none => { m with stage := .settling false }
  | some .complete => { m with stage := .settling true }
  | some (.fail e) => m.finish (.error e)

/-- Applies the effects of a transition from an event of `p` to the state `next`. -/
def apply (m : Merge L u) (p : InletId) (fx : Effects β L.Key) (next : L.State) : Merge L u :=
  if fx.emittedTwice then
    (m.log (.violated .emittedTwice p (L.showState m.state))).finish (.error (.protocol .emittedTwice))
  else
    let m := { m.follow fx.policy with state := next }
    ((fx.releases.foldl releaseNamed m).emit fx.emission).close fx.closing

/-- Logs a transition if the settings ask for it. -/
def trace (m : Merge L u) (p : InletId) (a : Arrival α) (next : L.State) : Merge L u :=
  if m.tracing then
    let pulls := (m.inlets[p]?.map (·.pulls)).getD 0
    m.log (.transition p a.kind pulls (L.showState m.state) (L.showState next))
  else m

/-- Handles an event of the inlet `p` that came while `choice` was in force. An element moves the rotating
preference on. -/
def dispatch (m : Merge L u) (choice : Choice) (p : InletId) (a : Arrival α) : Merge L u :=
  let m := m.note (.arrived choice p a)
  let m := if !a.isTerminal && choice.advances p then { m with turn := p + 1 } else m
  let t := m.transition p a
  let handled := { m with memory := t.memory, handled := m.handled + 1 }
  let noted := match m.handling p a t.next with
    | none => handled
    | some e => handled.note e
  (noted.trace p a t.next).apply p (.ofActions t.actions) t.next

end StreamMerge.Merge
