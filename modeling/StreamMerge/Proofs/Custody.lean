import Mathlib.Data.List.Induction
import StreamMerge.Proofs.Accounts

/-!
# Custody

An inlet alone, filled, taken from and released in any order whatever. It lets go of its source exactly when it
closes; of what the source has answered nothing gets lost before that, and what closed it shows in its status for good
(`Inlet.operate_custody`).
-/
namespace StreamMerge

variable {α : Type} {u : Source α}

/-- What a source in the state `s` answers to its next polls. -/
def Source.replies (u : Source α) : u.State → Nat → List (Reply α)
  | _, 0 => []
  | s, n + 1 => (u.poll s).reply :: u.replies (u.poll s).next n

/-- The state of a source after its next polls. -/
def Source.after (u : Source α) : u.State → Nat → u.State
  | s, 0 => s
  | s, n + 1 => u.after (u.poll s).next n

theorem Source.replies_succ (u : Source α) :
    ∀ (n : Nat) (s : u.State), u.replies s (n + 1) = u.replies s n ++ [(u.poll (u.after s n)).reply]
  | 0, _ => rfl
  | n + 1, s => by
    rw [replies, replies_succ u n]
    rfl

theorem Source.after_succ (u : Source α) :
    ∀ (n : Nat) (s : u.State), u.after s (n + 1) = (u.poll (u.after s n)).next
  | 0, _ => rfl
  | n + 1, s => after_succ u n (u.poll s).next

/-- The signal that a status stands for. -/
def InletStatus.arrival? : InletStatus → Option (Arrival α)
  | .completed => some .completed
  | .failed c => some (.failed c)
  | _ => none

namespace Inlet

/-! ## Operations -/

/-- What can be done with an inlet. -/
inductive Op where
  | fill
  | takeElement
  | take
  | release
  deriving DecidableEq, Repr

/-- What is seen of an operation from outside. -/
inductive Happening (α : Type) where
  /-- The source was polled, and answered. -/
  | polled (r : Reply α)
  | took (a : Arrival α)
  /-- The inlet was released, and said whether it gave a source up. -/
  | released (gaveUp : Bool)
  deriving DecidableEq, Repr

/-- Carries out an operation. -/
def perform (q : Inlet u) : Op → List (Happening α) × Inlet u
  | .fill => (q.fill.1.toList.map (.polled ·.reply), q.fill.2)
  | .takeElement => (q.takeElement.1.toList.map (.took <| .element ·), q.takeElement.2)
  | .take => (q.take.1.toList.map .took, q.take.2)
  | .release => ([.released q.release.1], q.release.2)

/-- Carries out operations one after another. -/
def operate (q : Inlet u) : List Op → List (Happening α) × Inlet u
  | [] => ([], q)
  | op :: ops =>
    let (hs, q') := q.perform op
    let (hs', q'') := q'.operate ops
    (hs ++ hs', q'')

/-- What the source answered. -/
def replies (hs : List (Happening α)) : List (Reply α) :=
  hs.filterMap fun
    | .polled r => some r
    | _ => none

/-- The signals that the source yielded. -/
def yields (hs : List (Happening α)) : List (Arrival α) := (replies hs).filterMap Arrival.ofReply?

/-- The signals that were taken. -/
def takes (hs : List (Happening α)) : List (Arrival α) :=
  hs.filterMap fun
    | .took a => some a
    | _ => none

/-- What the releases said. -/
def releases (hs : List (Happening α)) : List Bool :=
  hs.filterMap fun
    | .released b => some b
    | _ => none

section
variable (hs hs' : List (Happening α))

@[simp] theorem replies_append : replies (hs ++ hs') = replies hs ++ replies hs' := List.filterMap_append

@[simp] theorem takes_append : takes (hs ++ hs') = takes hs ++ takes hs' := List.filterMap_append

@[simp] theorem releases_append : releases (hs ++ hs') = releases hs ++ releases hs' := List.filterMap_append

end

theorem operate_append (ops ops' : List Op) (q : Inlet u) :
    q.operate (ops ++ ops') =
      ((q.operate ops).1 ++ ((q.operate ops).2.operate ops').1, ((q.operate ops).2.operate ops').2) := by
  induction ops generalizing q with
  | nil => rfl
  | cons op ops ih => simp [operate, ih]

/-! ## What an operation does -/

/-- All that can come of an operation, with what is seen of it. -/
inductive Performs (q : Inlet u) : Op → List (Happening α) × Inlet u → Prop
  | idle (op : Op) : op ≠ .release → Performs q op ([], q)
  | fill (s : u.State) : q.buffer = none → q.source = some s →
      Performs q .fill ([.polled (u.poll s).reply], q.store (u.poll s))
  | takeElement (x : α) : q.buffer = some (.element x) →
      Performs q .takeElement ([.took (.element x)], { q with buffer := none })
  | take (a : Arrival α) : q.buffer = some a → Performs q .take ([.took a], q.take.2)
  | release : Performs q .release ([.released q.source.isSome], q.release.2)

theorem performs (q : Inlet u) (op : Op) : Performs q op (q.perform op) := by
  cases op with
  | fill =>
    obtain h | ⟨s, hb, hs, h⟩ := q.fill_cases
    · rw [perform, h]
      exact .idle .fill Op.noConfusion
    · rw [perform, h]
      exact .fill s hb hs
  | takeElement =>
    rw [perform, takeElement]
    split
    · exact .takeElement _ ‹_›
    · exact .idle .takeElement Op.noConfusion
  | take =>
    cases hb : q.buffer with
    | none =>
      have hidle : q.take = (none, q) := by rw [take, hb]
      rw [perform, hidle]
      exact .idle .take Op.noConfusion
    | some a =>
      rw [perform, take_kept hb]
      exact .take a hb
  | release => exact .release

/-- With its end or failure an inlet gives up all it has, and its status tells which of them it was. -/
theorem take_terminal {q : Inlet u} {a : Arrival α} (h : q.buffer = some a) (ht : a.isTerminal = true) :
    ∃ v : InletStatus, v.arrival? = some a ∧ q.take.2 = ⟨none, none, v, q.pulls⟩ := by
  cases a with
  | element x => cases ht
  | completed => exact ⟨.completed, rfl, by rw [take, h]⟩
  | failed c => exact ⟨.failed c, rfl, by rw [take, h]⟩

/-- A closed inlet stays as it is. -/
theorem Sound.perform_closed {q : Inlet u} (h : q.Sound) (hc : q.isOpen = false) (op : Op) : (q.perform op).2 = q := by
  obtain ⟨hb, hs⟩ := h.closed hc
  cases op with
  | fill => simp [perform, fill, hb, hs]
  | takeElement => simp [perform, takeElement, hb]
  | take => exact take_of_empty hb
  | release =>
    obtain ⟨source, buffer, status, pulls⟩ := q
    cases hb
    cases hs
    simp [perform, release, hc]

theorem Sound.operate_closed {q : Inlet u} (h : q.Sound) (hc : q.isOpen = false) (ops : List Op) :
    (q.operate ops).2 = q := by
  induction ops with
  | nil => rfl
  | cons op ops ih =>
    rw [operate]
    dsimp only
    rw [h.perform_closed hc, ih]

/-! ## What stays true -/

/-- What holds of an inlet over a source that began in the state `s`, and of all that was seen of it so far. -/
structure Kept (s : u.State) (hs : List (Happening α)) (q : Inlet u) : Prop where
  sound : q.Sound
  pulls : q.pulls = (yields hs).length
  answers : replies hs = u.replies s (replies hs).length
  source : ∀ t, q.source = some t → t = u.after s (replies hs).length
  settled : q.status ≠ .cancelled → takes hs ++ q.buffer.toList = yields hs
  lost : ∃ lost : Option (Arrival α), takes hs ++ lost.toList = yields hs
  ended : (takes hs).filter (·.isTerminal) = q.status.arrival?.toList
  released : (releases hs).count true = if q.status = .cancelled then 1 else 0

theorem kept_new (s : u.State) : Kept s [] (new s) where
  sound := sound_new s
  pulls := rfl
  answers := rfl
  source _ ht := (Option.some.inj ht).symm
  settled _ := rfl
  lost := ⟨none, rfl⟩
  ended := rfl
  released := rfl

namespace Kept

variable {s : u.State} {hs : List (Happening α)} {q : Inlet u}

theorem live_of_source (h : Kept s hs q) {t : u.State} (ht : q.source = some t) : q.status = .live :=
  isOpen_iff.1 (by rw [← h.sound.source_isSome, ht]; rfl)

theorem live_of_buffer (h : Kept s hs q) {a : Arrival α} (ha : q.buffer = some a) : q.status = .live :=
  isOpen_iff.1 (h.sound.isOpen_of_buffer (by rw [ha]; rfl))

theorem fill (h : Kept s hs q) {t : u.State} (hb : q.buffer = none) (ht : q.source = some t) :
    Kept s (hs ++ [.polled (u.poll t).reply]) (q.store (u.poll t)) := by
  have hlive := h.live_of_source ht
  have hreplies : Inlet.replies (hs ++ [.polled (u.poll t).reply]) = Inlet.replies hs ++ [(u.poll t).reply] := by
    rw [replies_append]
    rfl
  have hyields : yields (hs ++ [.polled (u.poll t).reply]) =
      yields hs ++ (Arrival.ofReply? (u.poll t).reply).toList := by
    rw [yields, hreplies, List.filterMap_append, ← yields]
    cases (u.poll t).reply <;> rfl
  have htakes : takes (hs ++ [.polled (u.poll t).reply]) = takes hs := by
    rw [takes_append]
    exact List.append_nil _
  have hlen : (Inlet.replies hs ++ [(u.poll t).reply]).length = (Inlet.replies hs).length + 1 := by simp
  have hsettled : takes hs = yields hs := by
    simpa [hb] using h.settled (by simp [hlive])
  refine ⟨sound_store h.sound ht _, ?_, ?_, fun t' ht' => ?_, fun _ => ?_, ?_, ?_, ?_⟩
  · rw [hyields, List.length_append, ← h.pulls, store]
    cases (u.poll t).reply <;> rfl
  · rw [hreplies, hlen, u.replies_succ, ← h.answers, ← h.source t ht]
  · rw [source_store] at ht'
    rw [hreplies, hlen, u.after_succ, ← h.source t ht]
    exact (Option.some.inj ht').symm
  · rw [htakes, hyields, buffer_store hb, hsettled]
  · exact ⟨_, by rw [htakes, hyields, hsettled]⟩
  · rw [htakes, status_store]
    exact h.ended
  · rw [releases_append, status_store]
    simpa [releases] using h.released

/-- Taking the element that is kept. -/
theorem takeElement (h : Kept s hs q) {x : α} (hb : q.buffer = some (.element x)) :
    Kept s (hs ++ [.took (.element x)]) { q with buffer := none } := by
  have hsettled := h.settled (by simp [h.live_of_buffer hb])
  have htakes : takes (hs ++ [.took (.element x)]) = yields hs := by
    rw [takes_append, ← hsettled, hb]
    rfl
  refine ⟨⟨h.sound.source_isSome, by simp⟩, ?_, ?_, ?_, fun _ => ?_, ⟨none, ?_⟩, ?_, ?_⟩
  · simpa [yields, Inlet.replies] using h.pulls
  · simpa [Inlet.replies] using h.answers
  · simpa [Inlet.replies] using h.source
  · simpa [yields, Inlet.replies] using htakes
  · simpa [yields, Inlet.replies] using htakes
  · rw [takes_append, List.filter_append, h.ended]
    exact List.append_nil _
  · simpa [releases] using h.released

theorem take (h : Kept s hs q) {a : Arrival α} (hb : q.buffer = some a) : Kept s (hs ++ [.took a]) q.take.2 := by
  cases hterm : a.isTerminal with
  | false =>
    obtain ⟨x, rfl⟩ := Arrival.isTerminal_eq_false.1 hterm
    rw [take_element hb]
    exact h.takeElement hb
  | true =>
    have hlive := h.live_of_buffer hb
    obtain ⟨v, hv, htake⟩ := take_terminal hb hterm
    have hne : v ≠ .cancelled := by rintro rfl; cases hv
    have hopen : v.isTerminal = true := by cases v <;> first | rfl | cases hv
    have htakes : takes (hs ++ [.took a]) = yields hs := by
      rw [takes_append, ← h.settled (by simp [hlive]), hb]
      rfl
    rw [htake]
    refine ⟨⟨by simp [isOpen, hopen], by simp⟩, ?_, ?_, by simp, fun _ => ?_, ⟨none, ?_⟩, ?_, ?_⟩
    · simpa [yields, Inlet.replies] using h.pulls
    · simpa [Inlet.replies] using h.answers
    · simpa [yields, Inlet.replies] using htakes
    · simpa [yields, Inlet.replies] using htakes
    · -- Before, the status told of no signal, so none had been taken that ends an inlet.
      have hended : (takes hs).filter (·.isTerminal) = [] := by rw [h.ended, hlive]; rfl
      rw [takes_append, List.filter_append, hended, hv]
      simp [takes, hterm]
    · have hreleased := h.released
      rw [hlive] at hreleased
      simpa [releases, hne] using hreleased

theorem release (h : Kept s hs q) : Kept s (hs ++ [.released q.source.isSome]) q.release.2 := by
  refine ⟨sound_release q, ?_, ?_, by simp, fun hn => ?_, ?_, ?_, ?_⟩
  · simpa [yields, Inlet.replies] using show q.release.2.pulls = _ from h.pulls
  · simpa [Inlet.replies] using h.answers
  · have hclosed : q.isOpen = false := by
      refine eq_false_of_ne_true fun hopen => hn ?_
      rw [status_release, hopen]
      rfl
    rw [status_release, hclosed] at hn
    have hsettled := h.settled hn
    rw [(h.sound.closed hclosed).1] at hsettled
    simpa [yields, Inlet.replies, takes] using hsettled
  · simpa [yields, Inlet.replies, takes] using h.lost
  · rw [status_release, takes_append, List.filter_append, h.ended]
    cases hopen : q.isOpen with
    | false => exact List.append_nil _
    | true =>
      rw [isOpen_iff.1 hopen]
      rfl
  · rw [releases_append, List.count_append, h.released, h.sound.source_isSome, status_release]
    cases hopen : q.isOpen with
    | false => simp [releases]
    | true => simp [releases, isOpen_iff.1 hopen]

/-- Every operation keeps it. -/
theorem perform (h : Kept s hs q) (op : Op) : Kept s (hs ++ (q.perform op).1) (q.perform op).2 := by
  have hp := q.performs op
  generalize q.perform op = r at hp ⊢
  cases hp with
  | idle => rwa [List.append_nil]
  | fill t hb ht => exact h.fill hb ht
  | takeElement x hb => exact h.takeElement hb
  | take a hb => exact h.take hb
  | release => exact h.release

end Kept

/-- Any operations keep it. -/
theorem kept_operate (s : u.State) (ops : List Op) : Kept s ((new s).operate ops).1 ((new s).operate ops).2 := by
  induction ops using List.reverseRecOn with
  | nil => exact kept_new s
  | append_singleton ops op ih =>
    rw [operate_append]
    simpa [operate] using ih.perform op

/-- Without a release no answer to one is seen. -/
theorem releases_operate (ops : List Op) (q : Inlet u) (h : .release ∉ ops) : releases (q.operate ops).1 = [] := by
  induction ops generalizing q with
  | nil => rfl
  | cons op ops ih =>
    obtain ⟨hop, hops⟩ := not_or.1 (List.mem_cons.not.1 h)
    have hfirst : releases (q.perform op).1 = [] := by
      have hp := q.performs op
      generalize q.perform op = r at hp ⊢
      cases hp with
      | release => exact absurd rfl hop
      | _ => rfl
    rw [operate]
    simp [hfirst, ih _ hops]

/-! ## Custody -/

/-- The ways in which an operation closes an inlet. -/
inductive Closes (q : Inlet u) : Op → List (Happening α) → InletStatus → Prop
  | taken (a : Arrival α) (v : InletStatus) : q.buffer = some a → v.arrival? = some a → Closes q .take [.took a] v
  | released : q.source.isSome = true → Closes q .release [.released true] .cancelled

/-- Only taking the end or a failure and a release change the status of an inlet, and only while it is live. -/
theorem Sound.closes {q : Inlet u} (h : q.Sound) (op : Op) (hne : (q.perform op).2.status ≠ q.status) :
    q.status = .live ∧ Closes q op (q.perform op).1 (q.perform op).2.status := by
  have hopen : q.isOpen = true := by
    by_contra hclosed
    exact hne (by rw [h.perform_closed (eq_false_of_ne_true hclosed)])
  refine ⟨isOpen_iff.1 hopen, ?_⟩
  have hp := q.performs op
  generalize q.perform op = r at hp hne ⊢
  cases hp with
  | idle => exact absurd rfl hne
  | fill => exact absurd (status_store _ _) hne
  | takeElement => exact absurd rfl hne
  | take a hb =>
    cases hterm : a.isTerminal with
    | false =>
      obtain ⟨x, rfl⟩ := Arrival.isTerminal_eq_false.1 hterm
      exact absurd (by rw [take_element hb]) hne
    | true =>
      obtain ⟨v, hv, htake⟩ := take_terminal hb hterm
      rw [htake]
      exact .taken a v hb hv
  | release =>
    have hsource := h.source_isSome.trans hopen
    rw [status_release, hopen, hsource]
    exact .released hsource

/-- What can be relied on when an inlet over a source in the state `s` has gone through the operations `ops`: what was
seen of them is `hs`, and `q` is what has become of the inlet. -/
structure Custody (s : u.State) (ops : List Op) (hs : List (Happening α)) (q : Inlet u) : Prop where
  source : q.source.isSome = true ↔ q.status = .live
  buffer : q.buffer.isSome = true → q.status = .live
  pulls : q.pulls = (yields hs).length
  answers : replies hs = u.replies s (replies hs).length
  unreleased : .release ∉ ops → takes hs ++ q.buffer.toList = yields hs
  settled : q.status ≠ .cancelled → takes hs ++ q.buffer.toList = yields hs
  /-- A release loses at most one signal. -/
  lost : ∃ lost : Option (Arrival α), takes hs ++ lost.toList = yields hs
  /-- The status is that of the end or failure that was taken, and there is no other. -/
  ended : (takes hs).filter (·.isTerminal) = q.status.arrival?.toList
  /-- One release gave the source up if the inlet is cancelled, and none if it is not. -/
  released : (releases hs).count true = if q.status = .cancelled then 1 else 0
  closes : ∀ op, (q.perform op).2.status ≠ q.status →
    q.status = .live ∧ Closes q op (q.perform op).1 (q.perform op).2.status
  closed : q.status ≠ .live → ∀ later, (q.operate later).2 = q
  leavesTerminal : ∀ a, q.buffer = some a → a.isTerminal = true → q.perform .takeElement = ([], q)
  release : (q.perform .release).1 = [.released (decide (q.status = .live))]

/-- **An inlet has custody of its source.** Whatever is done with an inlet, it has its source exactly while it is live,
hands on what the source yields in order and keeps at most one signal back, and closes once, by the signal that is
taken from it or by the one release that gives the source up. -/
theorem operate_custody (u : Source α) (s : u.State) (ops : List Op) :
    Custody s ops ((new s).operate ops).1 ((new s).operate ops).2 := by
  have h := kept_operate s ops
  have hsource : ((new s).operate ops).2.source.isSome = true ↔ ((new s).operate ops).2.status = .live := by
    rw [h.sound.source_isSome, isOpen_iff]
  refine ⟨hsource, fun hb => isOpen_iff.1 (h.sound.isOpen_of_buffer hb), h.pulls, h.answers, fun hops => ?_, h.settled,
    h.lost, h.ended, h.released, h.sound.closes, fun hne => ?_, fun a hb hterm => ?_, ?_⟩
  · refine h.settled fun hcancelled => ?_
    have hreleased := h.released
    rw [releases_operate ops _ hops, hcancelled] at hreleased
    cases hreleased
  · have hclosed : ((new s).operate ops).2.isOpen = false :=
      eq_false_of_ne_true fun hopen => hne (isOpen_iff.1 hopen)
    exact h.sound.operate_closed hclosed
  · rw [perform, Inlet.takeElement, hb]
    cases a <;> first | rfl | cases hterm
  · rw [perform, Inlet.release, Bool.eq_iff_iff.2 (hsource.trans decide_eq_true_iff.symm)]

end Inlet
end StreamMerge
