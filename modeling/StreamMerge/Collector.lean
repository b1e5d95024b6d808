import StreamMerge.Link

/-!
# Collecting everything

A collector is a consumer that asks for a fixed number of elements at a time and gathers whatever is delivered
until the merge has ended. It ends well also when nothing more can come, as after a cancellation elsewhere.
-/
namespace StreamMerge

/-- A consumer that gathers everything. -/
structure Collector (β : Type) where
  /-- How many elements are requested at a time. -/
  batch : Nat
  /-- How many requested elements have not come yet. -/
  outstanding : Nat
  gathered : List β
  /-- The consumer had cancelled before it began to collect, so that its requests are no longer sent. -/
  mute : Bool

namespace Collector

variable {β : Type}

/-- A collector that has requested nothing yet; it requests one element at a time at least. -/
def start (batch : Nat) (mute : Bool) : Collector β := ⟨max batch 1, 0, [], mute⟩

/-- Requests the next batch once everything requested has come. -/
def replenish (c : Collector β) (k : Link β) : Collector β × Link β :=
  if c.outstanding = 0 then
    ({ c with outstanding := c.batch }, if c.mute then k else k.send (.request c.batch))
  else (c, k)

/-- Gathers one element. -/
def accept (c : Collector β) (y : β) : Collector β :=
  { c with outstanding := c.outstanding - 1, gathered := c.gathered ++ [y] }

/-- Takes the deliveries that are there; the result is known once the merge has ended. -/
def receive (c : Collector β) (k : Link β) :
    List (Delivery β) → Option (Except MergeError (List β)) × Collector β × Link β
  | [] =>
    let (c, k) := c.replenish { k with deliveries := [] }
    (if k.attached then none else some (.ok c.gathered), c, k)
  | .element y :: rest =>
    let (c, k) := c.replenish k
    (c.accept y).receive k rest
  | .complete :: rest =>
    let (c, k) := c.replenish { k with deliveries := rest }
    (some (.ok c.gathered), c, k)
  | .error e :: rest =>
    let (c, k) := c.replenish { k with deliveries := rest }
    (some (.error e), c, k)

/-- One poll of a collector. -/
def poll (c : Collector β) (k : Link β) : Option (Except MergeError (List β)) × Collector β × Link β :=
  c.receive k k.deliveries

/-- There is a reason to poll the collector: it has never been polled, or something has been delivered, or
nothing more will be. -/
def isRunnable (c : Collector β) (k : Link β) : Bool :=
  c.outstanding = 0 || !k.deliveries.isEmpty || !k.attached

end Collector
end StreamMerge
