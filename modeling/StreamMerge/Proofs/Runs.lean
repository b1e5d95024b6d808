import Mathlib.Logic.Relation
import StreamMerge.Proofs.Moves
import StreamMerge.Proofs.Steps

/-!
# Runs

A merge changes by its own steps and by what others do to its link and its sources. `Change` is one such change,
`Changes` any number of them; every play of a session is a sequence of changes of its merge
(`play_changes`). What a merge is set up with and every change keeps, holds at every point of every play
(`play_induction`).
-/
namespace StreamMerge

variable {α β : Type} {L : Strategy α β} {u : Source α}

/-! ## Changes of a merge -/

namespace Merge

/-- One change of a merge. -/
inductive Change : Merge L u → Merge L u → Prop
  | step (m : Merge L u) : m.awake = true → Change m m.step
  /-- A poll begins. -/
  | rouse (m : Merge L u) : m.stage.isFinal = false → Change m { m with awake := true, link := m.link.heed }
  | relink (m : Merge L u) (k : Link β) : m.link.Around k → Change m { m with link := k }
  /-- The source of an inlet changes from outside. -/
  | adjust (m : Merge L u) (p : InletId) (q : Inlet u) (s s' : u.State) : m.inlets[p]? = some q →
      q.source = some s → Change m { m with inlets := m.inlets.set p { q with source := some s' } }
  /-- The run is given up. -/
  | abandon (m : Merge L u) : m.stage.isFinal = false →
      Change m { m.releaseAll with stage := .abandoned, awake := false, link := m.releaseAll.link.detach }

/-- Nothing happens any more in a run that is over. -/
theorem Change.rests {m m' : Merge L u} (h : Change m m') (hf : m.stage.isFinal = true) :
    m'.history = m.history ∧ m'.stage = m.stage := by
  cases h with
  | step =>
    rw [step_of_isFinal hf]
    exact ⟨rfl, rfl⟩
  | abandon hr =>
    rw [hf] at hr
    cases hr
  | _ => exact ⟨rfl, rfl⟩

/-- Any number of changes. -/
abbrev Changes : Merge L u → Merge L u → Prop := Relation.ReflTransGen Change

theorem advance_changes : ∀ (fuel : Nat) (m : Merge L u), Changes m (m.advance fuel)
  | 0, _ => .refl
  | fuel + 1, m => by
    unfold advance
    split
    · rename_i h
      exact .head (.step m h) (advance_changes fuel m.step)
    · exact .refl

theorem poll_changes (fuel : Nat) (m : Merge L u) : Changes m (m.poll fuel) := by
  unfold poll
  split
  · exact .refl
  · rename_i h
    exact .head (.rouse m (eq_false_of_ne_true h)) (advance_changes fuel _)

theorem abandon_changes (m : Merge L u) : Changes m m.abandon := by
  unfold abandon
  split
  · exact .refl
  · rename_i h
    exact .single (.abandon m (eq_false_of_ne_true h))

end Merge

namespace Session

/-- A move changes the merge as listed in `Merge.Change`. -/
theorem perform_changes (s : Session L u) (mv : Move u) : Merge.Changes s.merge (s.perform mv).merge := by
  cases s.performs mv with
  | link k h ha =>
    rw [h]
    exact .single (.relink s.merge k ha.around)
  | source p woken f q state k _ hq hs h ha =>
    rw [h]
    exact .tail (.single (.adjust s.merge p q state (f state) hq hs)) (.relink _ k ha.around)
  | poll fuel h =>
    subst h
    exact Merge.poll_changes fuel s.merge
  | abandon h =>
    subst h
    exact Merge.abandon_changes s.merge

/-- **A play changes the merge as listed in `Merge.Change`.** -/
theorem play_changes : ∀ (moves : List (Move u)) (s : Session L u), Merge.Changes s.merge (s.play moves).merge
  | [], _ => .refl
  | mv :: moves, s => (perform_changes s mv).trans (play_changes moves (s.perform mv))

end Session

/-! ## Induction over runs -/

namespace Merge

theorem Changes.induction {motive : Merge L u → Prop}
    (change : ∀ m m', Change m m' → motive m → motive m') {m m' : Merge L u} (h : Changes m m')
    (hm : motive m) : motive m' := by
  induction h with
  | refl => exact hm
  | tail _ hc ih => exact change _ _ hc ih

/-- A merge as it is set up. -/
structure Fresh (m : Merge L u) (sources : List u.State) : Prop where
  inlets : m.inlets = sources.map Inlet.new
  credit : m.credit = .none
  turn : m.turn = 0
  unsent : m.unsent = none
  stage : m.stage = .unpolled
  awake : m.awake = false
  link : m.link = .fresh
  history : m.history = []

theorem setUp_fresh {settings : Settings} {sources : List u.State} {m : Merge L u}
    (h : setUp L u settings sources = .ok m) : Fresh m sources := by
  unfold setUp at h
  split at h
  · cases h
  · cases h
    exact ⟨rfl, rfl, rfl, rfl, rfl, rfl, rfl, rfl⟩

/-- What holds of a merge as it is set up and is kept by every change, holds after every play. -/
theorem play_induction {motive : Merge L u → Prop} {settings : Settings} {sources : List u.State}
    {m : Merge L u} (hm : setUp L u settings sources = .ok m)
    (start : ∀ (m : Merge L u) (sources : List u.State), Fresh m sources → motive m)
    (change : ∀ m m', Change m m' → motive m → motive m') (moves : List (Move u)) :
    motive ((Session.start m).play moves).merge :=
  (Session.play_changes moves (Session.start m)).induction change (start m sources (setUp_fresh hm))

end Merge
end StreamMerge
