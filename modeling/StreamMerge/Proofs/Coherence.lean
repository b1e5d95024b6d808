import StreamMerge.Proofs.Runs

/-!
# Coherence

The place of a merge in its run fits the rest of its state: a merge is `Coherent`. In particular an emitted
element has credit, an attempt reads what the present state of the strategy chooses, and a run that waits has
nothing left to deliver.
-/
namespace StreamMerge.Merge

variable {α β : Type} {L : Strategy α β} {u : Source α}

/-! ## The place in the run -/

/-- What a stage says of the rest of the merge. -/
def Fits (m : Merge L u) : Stage → Prop
  | .settling _ | .abandoned => True
  | .draining (.deliver _) => m.unsent.isSome = true
  | .awaiting (.deliver _) => False
  | .unpolled | .draining .read | .awaiting .read => m.unsent = none
  | .attempting choice order =>
    m.unsent = none ∧ m.credit.isPositive = true ∧ choice = L.choice m.memory m.state ∧
      order = choice.readingOrder m.turn (m.inletIs · (·.isOpen)) ∧ order ≠ []
  | .ended verdict => verdict = .ok .completed → m.unsent = none

/-- What is emitted has credit, the stage fits, and a run waits only when there is nothing to deliver. -/
structure Coherent (m : Merge L u) : Prop where
  funded : m.unsent.isSome = true → m.credit.isPositive = true
  fits : Fits m m.stage
  idle : m.awake = false → m.unsent = none ∨ m.stage.isFinal = true

theorem isPositive_grant {c : Credit} (h : c.isPositive = true) (n : Nat) : (c.grant n).isPositive = true := by
  rw [Credit.isPositive_iff] at h ⊢
  have : 0 < Credit.limit := by decide
  rw [Credit.remaining_grant]
  omega

/-- A stage fits as well after changes that keep the core, the statuses and, if it is `attempting`, the credit
positive. -/
theorem Fits.congr {m m' : Merge L u} {stage : Stage} (h : Fits m stage) (hu : m'.unsent = m.unsent)
    (hm : m'.memory = m.memory) (hs : m'.state = m.state) (ht : m'.turn = m.turn)
    (hc : m.credit.isPositive = true → m'.credit.isPositive = true)
    (ho : (m'.inletIs · (·.isOpen)) = (m.inletIs · (·.isOpen))) : Fits m' stage := by
  cases stage with
  | unpolled => exact hu.trans h
  | settling closing => trivial
  | draining aim =>
    cases aim with
    | read => exact hu.trans h
    | deliver closing =>
      have hs : m.unsent.isSome = true := h
      show m'.unsent.isSome = true
      rw [hu, hs]
  | awaiting aim =>
    cases aim with
    | read => exact hu.trans h
    | deliver closing => exact h
  | attempting choice order =>
    obtain ⟨h₁, h₂, h₃, h₄, h₅⟩ := h
    exact ⟨hu.trans h₁, hc h₂, by rw [hm, hs]; exact h₃, by rw [ht, ho]; exact h₄, h₅⟩
  | ended verdict => exact fun hv => hu.trans (h hv)
  | abandoned => trivial

theorem Fresh.coherent {m : Merge L u} {sources : List u.State} (h : Fresh m sources) : m.Coherent :=
  ⟨by rw [h.unsent]; simp, by rw [h.stage]; exact h.unsent, fun _ => Or.inl h.unsent⟩

theorem Coherent.unsent_of_attempting {m : Merge L u} (h : m.Coherent) {choice : Choice} {order : List InletId}
    (hst : m.stage = .attempting choice order) : m.unsent = none := by
  have hf := h.fits
  rw [hst] at hf
  exact hf.1

theorem Coherent.not_awaiting_deliver {m : Merge L u} (hc : m.Coherent) {closing : Bool} :
    m.stage ≠ .awaiting (.deliver closing) := by
  intro hst
  have hf := hc.fits
  rw [hst] at hf
  exact hf

/-- A merge that has just been settled or ended is coherent, if what it emitted has credit. -/
theorem coherent_close {m : Merge L u} (hc : m.credit.isPositive = true) (ha : m.awake = true)
    (closing : Option Closing) : (m.close closing).Coherent := by
  unfold close
  split
  · exact ⟨fun _ => hc, trivial, by simp [ha]⟩
  · exact ⟨fun _ => hc, trivial, by simp [ha]⟩
  · rename_i e
    have h := finish_spec m (.error e)
    have hcredit : (m.finish (.error e)).credit = m.credit := credit_of_core h.core
    refine ⟨fun _ => by rw [hcredit]; exact hc, ?_, fun _ => Or.inr (by rw [h.stage]; rfl)⟩
    rw [h.stage]
    intro hv
    cases hv

theorem coherent_dispatch {m : Merge L u} (hc : m.credit.isPositive = true) (ha : m.awake = true)
    (choice : Choice) (p : InletId) (a : Arrival α) : (m.dispatch choice p a).Coherent := by
  rw [dispatch_eq, apply_eq]
  have h := accept_spec m choice p a
  split
  · exact coherent_close (m := (m.accept choice p a).log _) (h.credit ▸ hc) (h.awake.trans ha)
      (some (.fail (.protocol .emittedTwice)))
  · have hs := settled_spec (m.accept choice p a) (.ofActions (m.transition p a).actions)
      (m.transition p a).next
    exact coherent_close (by rw [hs.credit, h.credit]; exact hc) (hs.awake.trans (h.awake.trans ha)) _

theorem Tries.coherent {m m' : Merge L u} (h : Tries m m') (hm : m.Coherent) (ha : m.awake = true) :
    m'.Coherent := by
  cases h with
  | waits choice order hst =>
    have hf := frame_seek m order
    refine ⟨fun hu => ?_, ?_, fun _ => Or.inl ?_⟩
    · rw [show _ = m.credit from hf.credit]
      exact hm.funded (by rw [← hf.unsent]; exact hu)
    · show Fits _ (m.seek order).2.stage
      rw [hf.stage]
      exact hm.fits.congr hf.unsent hf.memory hf.state hf.turn
        (fun hc => by rw [show _ = m.credit from hf.credit]; exact hc) (inletIs_isOpen_seek m order)
    · have hfit := hm.fits
      rw [hst] at hfit
      exact hf.unsent.trans hfit.1
  | accepts choice order p a q hst =>
    have hf := (frame_seek m order).trans (frame_putInlet _ p q.take.2)
    have hfit := hm.fits
    rw [hst] at hfit
    exact coherent_dispatch (by rw [hf.credit]; exact hfit.2.1) (hf.awake.trans ha) choice p a

theorem Step.coherent {m m' : Merge L u} (h : Step m m') (hm : m.Coherent) (ha : m.awake = true) :
    m'.Coherent := by
  have hidle : m.awake = false → m.unsent = none ∨ m.stage.isFinal = true := hm.idle
  cases h with
  | opens => exact ⟨hm.funded, trivial, by simp [log, note, ha]⟩
  | turns stage ht =>
    refine ⟨hm.funded, ?_, by simp [ha]⟩
    cases ht with
    | deliver closing _ hu => exact hu
    | read _ hu => exact hu
    | await aim hst _ _ hc =>
      have hf := hm.fits
      rw [hst] at hf
      cases aim with
      | read => exact hf
      | deliver closing =>
        have := hm.funded hf
        rw [hc] at this
        cases this
    | choose order haim hc _ ho hne =>
      have hf := hm.fits
      have hu : m.unsent = none := by
        rcases haim.stage with hst | hst <;> rw [hst] at hf <;> exact hf
      exact ⟨hu, hc, rfl, ho, hne⟩
    | settle => trivial
  | starves aim hst hc =>
    have hf := hm.fits
    refine ⟨hm.funded, hf.congr rfl rfl rfl rfl id rfl, fun _ => Or.inl ?_⟩
    rw [hst] at hf
    cases aim with
    | read => exact hf
    | deliver closing => cases hf
  | hears n rest =>
    exact ⟨fun hu => isPositive_grant (hm.funded hu) n,
      hm.fits.congr rfl rfl rfl rfl (fun hc => isPositive_grant hc n) rfl, by simp [note, ha]⟩
  | delivers closing y _ _ _ hr =>
    have hd := delivered_spec closing y hr
    refine ⟨fun h => ?_, trivial, fun _ => Or.inl hd.unsent⟩
    rw [hd.unsent] at h
    cases h
  | tries m' _ _ h => exact h.coherent hm ha
  | ends m₁ v he =>
    have h := finish_spec m₁ v
    have hcredit : (m₁.finish v).credit = m₁.credit := credit_of_core h.core
    have hunsent : (m₁.finish v).unsent = m₁.unsent := unsent_of_core h.core
    refine ⟨?_, ?_, fun _ => Or.inr (by rw [h.stage]; rfl)⟩
    · rw [hcredit, hunsent]
      cases he with
      | undeliverable => intro hu; cases hu
      | _ => exact hm.funded
    · rw [h.stage]
      intro hv
      rw [hunsent]
      cases he with
      | completed closing _ hu => exact hu
      | _ => cases hv
  | rests => exact hm

theorem Change.coherent {m m' : Merge L u} (h : Change m m') (hm : m.Coherent) : m'.Coherent := by
  cases h with
  | step ha => exact (step_spec m).coherent hm ha
  | rouse => exact ⟨hm.funded, hm.fits.congr rfl rfl rfl rfl id rfl, by simp⟩
  | relink => exact ⟨hm.funded, hm.fits.congr rfl rfl rfl rfl id rfl, hm.idle⟩
  | adjust p q s s' hq =>
    have ho : ({ q with source := some s' } : Inlet u).isOpen = q.isOpen := rfl
    exact ⟨hm.funded, hm.fits.congr rfl rfl rfl rfl id (inletIs_isOpen_set hq rfl ho), hm.idle⟩
  | abandon =>
    have hf := frame_releaseAll m
    refine ⟨fun hu => ?_, trivial, fun _ => Or.inr rfl⟩
    rw [show _ = m.credit from hf.credit]
    exact hm.funded (by rw [← hf.unsent]; exact hu)

end StreamMerge.Merge
