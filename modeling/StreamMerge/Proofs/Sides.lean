import StreamMerge.Proofs.Pairing

/-!
# The sides of a pairing

In a pairing the inlet 0 has the left source and the inlet 1 the right one. As long as nobody puts another source in
their place, the one brings left elements only, and the other right ones (`Session.play_sided`).
-/
namespace StreamMerge

variable {α β : Type} {u : Source α} {v : Source β}

/-- The inlet 0 has a source of the left side, and the inlet 1 one of the right side. -/
def OnSide (p : InletId) (s : (Source.sides u v).State) : Prop :=
  (p = 0 → ∃ t, s = .inl t) ∧ (p = 1 → ∃ t, s = .inr t)

/-- The inlet 0 has brought left elements only, and the inlet 1 right ones. -/
structure Account.SidedAt (p : InletId) (c : Account (Source.sides u v)) : Prop where
  source : ∀ s, c.inlet.source = some s → OnSide p s
  left : p = 0 → ∀ e ∈ c.yielded, ∃ x, e = .left x
  right : p = 1 → ∀ e ∈ c.yielded, ∃ y, e = .right y

/-- A change from outside leaves each source on its side. -/
def Move.KeepsSides : Move (Source.sides u v) → Prop
  | .adjust _ _ f => (∀ s, ∃ s', f (.inl s) = .inl s') ∧ ∀ t, ∃ t', f (.inr t) = .inr t'
  | _ => True

/-- The element of a changed answer. -/
theorem Reply.mem_element?_map {γ δ : Type} {f : γ → δ} {r : Reply γ} {y : δ} :
    y ∈ (r.map f).element?.toList ↔ ∃ x ∈ r.element?.toList, f x = y := by
  cases r <;> simp [map, element?, eq_comm]

/-- A poll leaves a source on its side, and brings an element of this side. -/
theorem OnSide.poll {p : InletId} {s : (Source.sides u v).State} (h : OnSide p s) :
    OnSide p ((Source.sides u v).poll s).next ∧
    (p = 0 → ∀ e ∈ ((Source.sides u v).poll s).reply.element?.toList, ∃ x, e = .left x) ∧
    (p = 1 → ∀ e ∈ ((Source.sides u v).poll s).reply.element?.toList, ∃ y, e = .right y) := by
  cases s with
  | inl s =>
    have hside : p ≠ 1 := by
      intro hp
      obtain ⟨t, ht⟩ := h.2 hp
      cases ht
    refine ⟨⟨fun _ => ⟨(u.poll s).next, rfl⟩, fun hp => absurd hp hside⟩, fun _ e he => ?_,
      fun hp => absurd hp hside⟩
    obtain ⟨x, -, rfl⟩ := Reply.mem_element?_map.1 he
    exact ⟨x, rfl⟩
  | inr s =>
    have hside : p ≠ 0 := by
      intro hp
      obtain ⟨t, ht⟩ := h.1 hp
      cases ht
    refine ⟨⟨fun hp => absurd hp hside, fun _ => ⟨(v.poll s).next, rfl⟩⟩, fun hp => absurd hp hside,
      fun _ e he => ?_⟩
    obtain ⟨y, -, rfl⟩ := Reply.mem_element?_map.1 he
    exact ⟨y, rfl⟩

namespace Account

theorem durable_sidedAt : Durable (SidedAt (u := u) (v := v)) := by
  intro p c c' h _ hw
  cases hw with
  | fill s hb hs =>
    obtain ⟨hnext, hleft, hright⟩ := (h.source s hs).poll
    refine ⟨fun s' hs' => ?_, fun hp e he => ?_, fun hp e he => ?_⟩
    · rw [Inlet.source_store] at hs'
      exact Option.some.inj hs' ▸ hnext
    · exact (List.mem_append.1 he).elim (h.left hp e) (hleft hp e)
    · exact (List.mem_append.1 he).elim (h.right hp e) (hright hp e)
  | take => exact ⟨fun s hs => h.source s (Inlet.source_take _ hs), h.left, h.right⟩
  | release => exact ⟨fun s hs => (by cases hs), h.left, h.right⟩

theorem spares_sidedAt {mv : Move (Source.sides u v)} (h : mv.KeepsSides) : mv.Spares SidedAt := by
  cases mv with
  | adjust p woken f =>
    intro c s hc hs
    obtain ⟨hl, hr⟩ := hc.source s hs
    refine ⟨fun s' hs' => ?_, hc.left, hc.right⟩
    obtain rfl := Option.some.inj hs'
    refine ⟨fun hp => ?_, fun hp => ?_⟩
    · obtain ⟨t, rfl⟩ := hl hp
      exact h.1 t
    · obtain ⟨t, rfl⟩ := hr hp
      exact h.2 t
  | _ => exact trivial

end Account

theorem Merge.sided_of_accounts {m : Merge (Strategy.zip α β) (Source.sides u v)}
    (h : m.EachAccount Account.SidedAt) (hb : m.Balanced) (htwo : m.inlets.length = 2) : m.Sided := by
  have hyielded : ∀ k, k < 2 → (m.handed k <+: m.yielded k) ∧ (k = 0 → ∀ e ∈ m.yielded k, ∃ x, e = .left x) ∧
      (k = 1 → ∀ e ∈ m.yielded k, ∃ y, e = .right y) := by
    intro k hk
    have hq := List.getElem?_eq_getElem (htwo.symm ▸ hk)
    have hside := h k _ hq
    exact ⟨(hb k _ hq).handed_initial, hside.left, hside.right⟩
  obtain ⟨hpre₀, hleft, -⟩ := hyielded 0 (by decide)
  obtain ⟨hpre₁, -, hright⟩ := hyielded 1 (by decide)
  exact ⟨fun e he => hleft rfl e (hpre₀.subset he), fun e he => hright rfl e (hpre₁.subset he)⟩

/-- **Each inlet of a pairing brings elements of its side.** -/
theorem Session.play_sided {settings : Settings} {left : u.State} {right : v.State}
    {m : Merge (Strategy.zip α β) (Source.sides u v)}
    (hm : Merge.setUp (Strategy.zip α β) (Source.sides u v) settings [.inl left, .inr right] = .ok m)
    {moves : List (Move (Source.sides u v))} (hk : ∀ mv ∈ moves, mv.KeepsSides) :
    ((start m).play moves).merge.Sided := by
  have hfresh := Merge.setUp_fresh hm
  have hstart : (start m).merge.EachAccount Account.SidedAt := by
    intro p q hq
    have hq : m.inlets[p]? = some q := hq
    have hempty : ∀ e, e ∉ m.yielded p := by
      intro e he
      rw [Merge.yielded, hfresh.history] at he
      cases he
    rw [hfresh.inlets] at hq
    refine ⟨fun s hs => ⟨fun hp => ?_, fun hp => ?_⟩, fun _ e he => absurd he (hempty e),
      fun _ e he => absurd he (hempty e)⟩
    · subst hp
      obtain rfl := Option.some.inj hq
      exact ⟨left, (Option.some.inj hs).symm⟩
    · subst hp
      obtain rfl := Option.some.inj hq
      exact ⟨right, (Option.some.inj hs).symm⟩
  have hplay := eachAccount_play Account.durable_sidedAt moves (start m) hstart hfresh.balanced
    fun mv hmv => Account.spares_sidedAt (hk mv hmv)
  exact Merge.sided_of_accounts hplay (Merge.play_balanced hm moves) (Merge.play_count hm moves)

end StreamMerge
