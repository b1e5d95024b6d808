import Mathlib.Data.List.Induction
import StreamMerge.Transition

/-!
# What requests come to

A transition may make any requests in any order. `Effects.Adds` says what one more request does, and `Effects.Amounts`
what all of them come to together, for each thing that can be requested on its own terms: of what is emitted the first
counts, and that there are more of them; of the requests to end the merge the first, of the policies the last, and of
the inlets to release all.
-/
namespace StreamMerge

variable {β K : Type}

/-! ## Kinds of requests -/

namespace Action

/-- The element that is emitted. -/
def emitted? : Action β K → Option β
  | .emit y => some y
  | _ => none

/-- How a request ends the merge, if it does. -/
def closing? : Action β K → Option Closing
  | .complete => some .complete
  | .fail e => some (.fail e)
  | _ => none

/-- The policy to follow from now on. -/
def policy? : Action β K → Option (EndPolicy K)
  | .follow policy => some policy
  | _ => none

theorem closing?_eq_complete {a : Action β K} : a.closing? = some .complete ↔ a = .complete := by
  cases a <;> simp [closing?]

end Action

namespace Effects

/-! ## One request -/

/-- What one more request does. -/
structure Adds (fx : Effects β K) (a : Action β K) (fx' : Effects β K) : Prop where
  emission : fx'.emission = (fx.emission <|> a.emitted?)
  emittedTwice : fx'.emittedTwice = (fx.emittedTwice || fx.emission.isSome && a.emitted?.isSome)
  closing : fx'.closing = (fx.closing <|> a.closing?)
  policy : fx'.policy = (a.policy? <|> fx.policy)
  releases : ∀ p, p ∈ fx'.releases ↔ p ∈ fx.releases ∨ a = .release p

theorem add_spec (fx : Effects β K) (a : Action β K) : Adds fx a (fx.add a) := by
  cases a with
  | emit y =>
    cases hem : fx.emission with
    | none =>
      have hadd : fx.add (.emit y) = { fx with emission := some y } := by simp only [add, hem]
      rw [hadd]
      constructor <;> simp [Action.emitted?, Action.closing?, Action.policy?, hem]
    | some y' =>
      have hadd : fx.add (.emit y) = { fx with emittedTwice := true } := by simp only [add, hem]
      rw [hadd]
      constructor <;> simp [Action.emitted?, Action.closing?, Action.policy?, hem]
  | release k =>
    by_cases hk : k ∈ fx.releases
    · have hadd : fx.add (.release k) = fx := by simp only [add, hk, if_true]
      have hmem : ∀ p, p ∈ fx.releases ↔ p ∈ fx.releases ∨ Action.release (β := β) (K := K) k = .release p := by
        intro p
        constructor
        · exact Or.inl
        · rintro (hp | hp)
          · exact hp
          · rwa [← Action.release.inj hp]
      rw [hadd]
      exact ⟨by simp [Action.emitted?], by simp [Action.emitted?], by simp [Action.closing?], rfl, hmem⟩
    · have hadd : fx.add (.release k) = { fx with releases := fx.releases ++ [k] } := by
        simp only [add, hk, if_false]
      rw [hadd]
      constructor <;> simp [Action.emitted?, Action.closing?, Action.policy?, eq_comm]
  | _ => constructor <;> simp [add, Action.emitted?, Action.closing?, Action.policy?]

/-! ## Any number of requests -/

/-- What `actions` amount to. -/
structure Amounts (actions : List (Action β K)) (fx : Effects β K) : Prop where
  emission : fx.emission = (actions.filterMap Action.emitted?).head?
  emittedTwice : fx.emittedTwice = decide (2 ≤ (actions.filterMap Action.emitted?).length)
  closing : fx.closing = actions.findSome? Action.closing?
  policy : fx.policy = (actions.filterMap Action.policy?).getLast?
  releases : ∀ p, p ∈ fx.releases ↔ .release p ∈ actions

theorem Amounts.concat {actions : List (Action β K)} {fx fx' : Effects β K} {a : Action β K} (h : Amounts actions fx)
    (ha : Adds fx a fx') : Amounts (actions ++ [a]) fx' where
  emission := by
    rw [ha.emission, h.emission, List.filterMap_append, List.head?_append]
    cases hem : a.emitted? with
    | none => simp [List.filterMap_cons_none hem]
    | some y => simp [List.filterMap_cons_some hem]
  emittedTwice := by
    rw [ha.emittedTwice, h.emittedTwice, h.emission, List.filterMap_append]
    cases hem : a.emitted? with
    | none => simp [List.filterMap_cons_none hem]
    | some y =>
      rw [List.filterMap_cons_some hem]
      cases actions.filterMap Action.emitted? <;> simp
  closing := by
    rw [ha.closing, h.closing, List.findSome?_append]
    cases hcl : a.closing? <;> simp [hcl]
  policy := by
    rw [ha.policy, h.policy, List.filterMap_append, List.getLast?_append]
    cases hp : a.policy? with
    | none => rw [List.filterMap_cons_none hp]; rfl
    | some policy => rw [List.filterMap_cons_some hp]; rfl
  releases p := by
    rw [ha.releases, h.releases, List.mem_append, List.mem_singleton, eq_comm]

/-- **All requests together**, from the first to the last. -/
theorem amounts_ofActions (actions : List (Action β K)) : Amounts actions (ofActions actions) := by
  induction actions using List.reverseRecOn with
  | nil => exact ⟨rfl, rfl, rfl, rfl, fun p => by simp [ofActions, empty]⟩
  | append_singleton actions a ih =>
    have hconcat : ofActions (actions ++ [a]) = (ofActions actions).add a := by
      rw [ofActions, List.foldl_append]
      rfl
    rw [hconcat]
    exact ih.concat (add_spec (ofActions actions) a)

theorem releases_ofActions {actions : List (Action β K)} (h : ∀ k, .release k ∉ actions) :
    (ofActions actions).releases = [] :=
  List.eq_nil_iff_forall_not_mem.2 fun k hk => h k (((amounts_ofActions actions).releases k).1 hk)

end Effects
end StreamMerge
