import StreamMerge.Strategy

/-!
# Interleaving strategies

`fair` and `preferred` pass every element on as it comes. Under `fair` all inputs take turns; under
`preferred` the first input goes before the others, which take turns among themselves.
-/
namespace StreamMerge.Strategy

/-- Passes an element on and stays. -/
def pass {α K S M : Type} (memory : M) (state : S) (x : α) : Transition α K S M :=
  ⟨[.emit x], state, memory⟩

/-- The only state of the fair strategy. -/
inductive FairState where
  | readAny
  deriving DecidableEq, Repr

/-- Forwards whatever any input has. The memory is the list of the inputs. -/
abbrev fair (α : Type) : Strategy α α where
  State := FairState
  Key := Empty
  Memory := List InletId
  name := "FairMerge"
  fresh := []
  handles inputs count :=
    match sequentialHandles "FairMerge" ⟨1, none⟩ count with
    | .ok inlets => (.ok inlets, inlets)
    | .error e => (.error e, inputs)
  start _ := .readAny
  policy _ := .exhaust
  choice inputs _ := .any inputs
  onElement inputs _ state _ x := pass inputs state x
  onEnd _ _ key := nomatch key
  onFailure _ _ key := nomatch key
  showState _ := "ReadAny"
  showKey := nofun

/-- The only state of the preferring strategy. -/
inductive PreferredState where
  | readPreferred
  deriving DecidableEq, Repr

/-- Forwards the first input whenever it has an element. The memory is the list of the other inputs. -/
abbrev preferred (α : Type) : Strategy α α where
  State := PreferredState
  Key := Empty
  Memory := List InletId
  name := "PreferredMerge"
  fresh := []
  handles others count :=
    match sequentialHandles "PreferredMerge" ⟨2, none⟩ count with
    | .ok inlets => (.ok inlets, inlets.tail)
    | .error e => (.error e, others)
  start _ := .readPreferred
  policy _ := .exhaust
  choice others _ := .preferred 0 others
  onElement others _ state _ x := pass others state x
  onEnd _ _ key := nomatch key
  onFailure _ _ key := nomatch key
  showState _ := "ReadPreferred"
  showKey := nofun

end StreamMerge.Strategy
