import StreamMerge.Merge

/-!
# Attempts on the inlets

One attempt to find an inlet event. In this order: an element kept by an inlet that is named; the end or a
failure kept by any open inlet; the end or a failure of a bystander, an open inlet that is not named, polled in
the order of the inlets; anything from a named inlet, polled in the order given. The first that is found is
taken; each source is polled at most once.
-/
namespace StreamMerge.Merge

variable {α β : Type} {L : Strategy α β} {u : Source α}

/-- The source of `p` calls `n` times for cancellation. -/
def call (m : Merge L u) (p : InletId) : Nat → Merge L u
  | 0 => m
  | n + 1 => call ({ m with link := m.link.send .cancel }.note (.called p)) p n

/-- Polls the inlet `p` if it keeps nothing. -/
def fill (m : Merge L u) (p : InletId) : Merge L u :=
  match m.inlets[p]? with
  | none => m
  | some q =>
    match q.fill with
    | (none, _) => m
    | (some r, q) =>
      let m := ({ m with inlets := m.inlets.set p q }.call p r.cancels).note (.polled p r.reply)
      match r.reply with
      | .pending true => { m with link := m.link.wake }
      | _ => m

/-- Polls inlets in turn up to the first that then satisfies `test`. -/
def fillUntil (test : Inlet u → Bool) : List InletId → Merge L u → Option InletId × Merge L u
  | [], m => (none, m)
  | p :: ps, m =>
    let m := m.fill p
    if m.inletIs p test then (some p, m) else fillUntil test ps m

/-- The open inlets that `order` does not name. -/
def bystanders (m : Merge L u) (order : List InletId) : List InletId :=
  m.inletIds.filter fun p => m.inletIs p (·.isOpen) && p ∉ order

/-- Finds the inlet whose event comes next, if there is one. -/
def seek (m : Merge L u) (order : List InletId) : Option InletId × Merge L u :=
  match order.find? (m.inletIs · (·.hasElement)) with
  | some p => (some p, m)
  | none =>
    match m.inletIds.find? (m.inletIs · fun q => q.isOpen && q.hasTerminal) with
    | some p => (some p, m)
    | none =>
      match fillUntil (·.hasTerminal) (m.bystanders order) m with
      | (some p, m) => (some p, m)
      | (none, m) => fillUntil (·.buffer.isSome) order m

/-- Takes what the inlet `p` keeps. -/
def takeFrom (m : Merge L u) (p : InletId) : Option (InletId × Arrival α) × Merge L u :=
  match m.inlets[p]? with
  | none => (none, m)
  | some q =>
    match q.take with
    | (none, _) => (none, m)
    | (some a, q) => (some (p, a), m.putInlet p q)

/-- One attempt: the event that comes next, taken from its inlet. -/
def attempt (m : Merge L u) (order : List InletId) : Option (InletId × Arrival α) × Merge L u :=
  match m.seek order with
  | (none, m) => (none, m)
  | (some p, m) => m.takeFrom p

end StreamMerge.Merge
