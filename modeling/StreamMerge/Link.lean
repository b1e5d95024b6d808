import StreamMerge.MergeError

/-!
# The link between a consumer and a run

Two queues: signals from the consumer and from everybody else who may cancel, and deliveries to the consumer.
Each side notices when the other has gone: a run learns that nobody is left who could send it a signal, a
consumer that nothing more will be delivered.
-/
namespace StreamMerge

/-- A signal to a run. -/
inductive Signal where
  /-- `n` more elements may be delivered. -/
  | request (n : Nat)
  /-- Nothing more is wanted. -/
  | cancel
  deriving DecidableEq, Repr

/-- What a run hands to its consumer. -/
inductive Delivery (β : Type) where
  | element (y : β)
  /-- The merge has ended; nothing follows. -/
  | complete
  /-- The merge has failed; nothing follows. -/
  | error (e : MergeError)
  deriving DecidableEq, Repr

/-- Nothing follows this delivery. -/
def Delivery.isTerminal {β : Type} : Delivery β → Bool
  | .element _ => false
  | _ => true

/-- The two queues and who still takes part. -/
structure Link (β : Type) where
  /-- Signals sent and not taken yet, oldest first. -/
  signals : List Signal
  /-- How many parties can still send signals. -/
  senders : Nat
  /-- The run still takes signals and delivers. -/
  attached : Bool
  /-- Deliveries sent and not received yet, oldest first. -/
  deliveries : List (Delivery β)
  /-- The consumer still receives. -/
  receiving : Bool
  /-- There is a reason to poll the run. -/
  woken : Bool

namespace Link

variable {β : Type}

/-- A link with one sender, the consumer, and a run that has not been polled. -/
def fresh : Link β := ⟨[], 1, true, [], true, true⟩

/-- Sends a signal, which also wakes the run. It is lost when there is no run any more. -/
def send (k : Link β) (s : Signal) : Link β :=
  if k.attached then { k with signals := k.signals ++ [s], woken := true } else k

/-- One more party can send signals. -/
def join (k : Link β) : Link β := { k with senders := k.senders + 1 }

/-- One party fewer can send signals; when the last one goes, the run is woken. -/
def leave (k : Link β) : Link β :=
  { k with senders := k.senders - 1, woken := k.woken || k.senders ≤ 1 }

/-- Puts a delivery into the queue; it is lost when nobody receives any more. -/
def deliver (k : Link β) (d : Delivery β) : Link β :=
  if k.receiving then { k with deliveries := k.deliveries ++ [d] } else k

/-- The run takes no more signals and delivers nothing more. -/
def detach (k : Link β) : Link β := { k with signals := [], attached := false, woken := false }

/-- The consumer receives nothing more. -/
def hangUp (k : Link β) : Link β := { k with deliveries := [], receiving := false }

/-- Reason to poll the run. -/
def wake (k : Link β) : Link β := { k with woken := true }

/-- The run is being polled. -/
def heed (k : Link β) : Link β := { k with woken := false }

end Link
end StreamMerge
