import StreamMerge.Collector
import StreamMerge.Merge.Run
import StreamMerge.Source.Script

/-!
# Sessions

A merge together with those who use it: its consumer, the holders of handles with which it can be cancelled,
and whoever polls its run. Each operation says what it answers. Polling needs a bound on the steps of one poll;
`Merge.budget` gives one that is large enough when the scripts of the sources are finite.
-/
namespace StreamMerge

/-! ## How long a poll can take -/

/-- A bound on the number of steps of any poll from here on, given a bound on the answers to come from every
source: eight steps lead from one event to the next, every signal takes one, and each inlet brings at most two
more events than its source has answers to come. -/
def Merge.budget {α β : Type} {L : Strategy α β} {u : Source α} (answers? : u.State → Option Nat)
    (m : Merge L u) : Option Nat :=
  let rest := m.inlets.map fun q => match q.source with
    | none => some 0
    | some s => answers? s
  rest.foldl (fun total n => match total, n with
    | some total, some n => some (total + 8 * (n + 2))
    | _, _ => none) (some (16 + m.link.signals.length))

/-- The bound on the steps of a poll where the sources never end: only the credit limits such a poll. -/
def endless : Nat := 1_000_000_000_000

/-- The number of answers to come from a script, if there is one. -/
def Script.remaining? {α : Type} (s : Script α) : Option Nat := Script.answers? s.items

/-! ## Sessions -/

/-- The consumer of a merge. -/
inductive Consumer (β : Type) where
  /-- It is there, and may have cancelled. -/
  | present (cancelled : Bool)
  /-- It collects everything. -/
  | collecting (c : Collector β)
  /-- It is gone. -/
  | gone

/-- A merge and its users. -/
structure Session {α β : Type} (L : Strategy α β) (u : Source α) where
  merge : Merge L u
  consumer : Consumer β
  /-- The handles taken so far, and whether they are still held. -/
  handles : List Bool

/-- What a poll of the run answers. -/
inductive RunAnswer where
  | pending
  | ended (verdict : Verdict)
  /-- There is no run any more. -/
  | gone

/-- What waiting for a delivery answers. -/
inductive Received (β : Type) where
  | delivery (d : Delivery β)
  | pending
  /-- Nothing more will come. -/
  | closed
  /-- There is no consumer any more. -/
  | gone

namespace Session

variable {α β : Type} {L : Strategy α β} {u : Source α}

/-- A bound on the steps of a poll of the run, and on the number of polls until it has to wait, given a bound on
the answers to come from every source. -/
def fuel (answers? : u.State → Option Nat) (s : Session L u) : Nat :=
  (s.merge.budget answers?).getD endless

/-- A session with a merge that was just set up; a consumer is present. -/
def start (m : Merge L u) : Session L u := ⟨m, .present false, []⟩

/-- Changes the link. -/
def relink (s : Session L u) (f : Link β → Link β) : Session L u :=
  { s with merge := { s.merge with link := f s.merge.link } }

/-! ### The consumer -/

/-- The consumer asks for `n` more elements. Nothing is sent for zero, or after it has cancelled. -/
def request (s : Session L u) (n : Nat) : Session L u :=
  match s.consumer with
  | .present false => if n = 0 then s else s.relink (·.send (.request n))
  | _ => s

/-- The consumer cancels; only the first time counts. -/
def cancel (s : Session L u) : Session L u :=
  match s.consumer with
  | .present false => { s.relink (·.send .cancel) with consumer := .present true }
  | _ => s

/-- Whether the consumer has cancelled, if it is there. -/
def isCancelled (s : Session L u) : Option Bool :=
  match s.consumer with
  | .present cancelled => some cancelled
  | _ => none

/-- The consumer goes: it receives nothing more and can send nothing more. -/
def dismiss (s : Session L u) : Session L u :=
  match s.consumer with
  | .present _ => { s.relink fun k => k.hangUp.leave with consumer := .gone }
  | _ => s

/-- The consumer waits for the next delivery. -/
def receive (s : Session L u) : Received β × Session L u :=
  match s.consumer, s.merge.link.deliveries with
  | .present _, d :: rest => (.delivery d, s.relink fun k => { k with deliveries := rest })
  | .present _, [] => (if s.merge.link.attached then .pending else .closed, s)
  | _, _ => (.gone, s)

/-- The consumer takes all deliveries that are there. -/
def drain (s : Session L u) : List (Delivery β) × Session L u :=
  match s.consumer with
  | .present _ => (s.merge.link.deliveries, s.relink fun k => { k with deliveries := [] })
  | _ => ([], s)

/-! ### Handles -/

/-- Takes a handle with which the merge can be cancelled; its number. Without a consumer to take it from, the
number stands for a handle that is not held. -/
def takeHandle (s : Session L u) : Nat × Session L u :=
  match s.consumer with
  | .present _ => (s.handles.length, { s.relink (·.join) with handles := s.handles ++ [true] })
  | _ => (s.handles.length, { s with handles := s.handles ++ [false] })

/-- Somebody outside can cancel the merge, too, for as long as the session lasts. -/
def hold (s : Session L u) : Session L u := s.relink (·.join)

/-- The handle `h` is held. -/
def holds (s : Session L u) (h : Nat) : Bool := s.handles[h]?.getD false

/-- Doubles the handle `h`; the number of the new one. -/
def cloneHandle (s : Session L u) (h : Nat) : Option Nat × Session L u :=
  if s.holds h then (some s.handles.length, { s.relink (·.join) with handles := s.handles ++ [true] })
  else (none, s)

/-- Cancels with the handle `h`. -/
def cancelHandle (s : Session L u) (h : Nat) : Session L u :=
  if s.holds h then s.relink (·.send .cancel) else s

/-- Gives the handle `h` away. -/
def dropHandle (s : Session L u) (h : Nat) : Session L u :=
  if s.holds h then { s.relink (·.leave) with handles := s.handles.set h false } else s

/-! ### Sources -/

/-- Changes the source of the inlet `p` from outside; `woken` says of its state before whether that is a reason
to poll the run. -/
def adjust (s : Session L u) (p : InletId) (woken : u.State → Bool) (f : u.State → u.State) : Session L u :=
  match s.merge.inlets[p]? with
  | none => s
  | some q =>
    match q.source with
    | none => s
    | some state =>
      let inlets := s.merge.inlets.set p { q with source := some (f state) }
      let s := { s with merge := { s.merge with inlets } }
      if woken state then s.relink (·.wake) else s

/-! ### The run -/

/-- The run can still be polled. -/
def isRunning (s : Session L u) : Bool := !s.merge.stage.isFinal

/-- There is a reason to poll the run. -/
def isRunnable (s : Session L u) : Bool := s.isRunning && s.merge.link.woken

/-- Polls the run once, with at most `fuel s` steps. -/
def poll (fuel : Session L u → Nat) (s : Session L u) : Session L u :=
  { s with merge := s.merge.poll (fuel s) }

/-- Polls the run as long as there is a reason to, at most `rounds` times. -/
def settle (fuel : Session L u → Nat) : Nat → Session L u → Session L u
  | 0, s => s
  | rounds + 1, s => if s.isRunnable then settle fuel rounds (s.poll fuel) else s

/-- What the run answers to having been polled by `go`. -/
def runBy (go : Session L u → Session L u) (s : Session L u) : RunAnswer × Session L u :=
  if s.isRunning then
    let s := go s
    (match s.merge.verdict? with
      | some verdict => .ended verdict
      | none => .pending, s)
  else (.gone, s)

/-- Polls the run once. -/
def pollRun (fuel : Session L u → Nat) : Session L u → RunAnswer × Session L u := runBy (poll fuel)

/-- Polls the run once, and again as long as there is a reason to, at most `rounds` times after the first. -/
def settleRun (fuel : Session L u → Nat) (rounds : Nat) : Session L u → RunAnswer × Session L u :=
  runBy fun s => settle fuel rounds (s.poll fuel)

/-- Gives the run up. -/
def abandon (s : Session L u) : Session L u := { s with merge := s.merge.abandon }

/-! ### Collecting -/

/-- The consumer, if it is present, begins to collect everything in batches. -/
def beginCollect (s : Session L u) (batch : Nat) : Session L u :=
  match s.consumer with
  | .present cancelled => { s with consumer := .collecting (.start batch cancelled) }
  | _ => s

/-- Polls the collector if there is a reason to; with its result it is gone. -/
def pollCollector (s : Session L u) : Option (Except MergeError (List β)) × Session L u :=
  match s.consumer with
  | .collecting c =>
    if c.isRunnable s.merge.link then
      match c.poll s.merge.link with
      | (none, c, k) => (none, { s.relink (fun _ => k) with consumer := .collecting c })
      | (some r, _, k) => (some r, { s.relink (fun _ => k.hangUp.leave) with consumer := .gone })
    else (none, s)
  | _ => (none, s)

/-- The collector can go on. -/
def collectorRunnable (s : Session L u) : Bool :=
  match s.consumer with
  | .collecting c => c.isRunnable s.merge.link
  | _ => false

/-- Polls the collector and the run in turn as long as there is a reason to poll one of them, at most `rounds`
times; `result` is what the collector has come to so far. -/
def alternate (fuel : Session L u → Nat) (result : Option (Except MergeError (List β))) :
    Nat → Session L u → Option (Except MergeError (List β)) × Session L u
  | 0, s => (result, s)
  | rounds + 1, s =>
    if s.collectorRunnable || s.isRunnable then
      let (r, s) := s.pollCollector
      alternate fuel (result <|> r) rounds (if s.isRunnable then s.poll fuel else s)
    else (result, s)

/-- What collecting answers: of the collector `gone` when there is none, otherwise its result if it is there;
of the run nothing when it was over before. -/
inductive Collected (β : Type) where
  | pending
  | ended (r : Except MergeError (List β))
  | gone

/-- The consumer collects in batches, and both it and the run are polled until they have to wait. -/
def collect (fuel : Session L u → Nat) (rounds batch : Nat) (s : Session L u) :
    Collected β × RunAnswer × Session L u :=
  let s := s.beginCollect batch
  let present := match s.consumer with
    | .collecting _ => true
    | _ => false
  let running := s.isRunning
  let (r, s) := alternate fuel none rounds s
  let collected := match r with
    | some r => .ended r
    | none => if present then .pending else .gone
  let answer := match running, s.merge.verdict? with
    | false, _ => .gone
    | true, some verdict => .ended verdict
    | true, none => .pending
  (collected, answer, s)

end Session
end StreamMerge
