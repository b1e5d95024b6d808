import StreamMerge.Proofs.Tokens

/-!
# Values are skipped

A well-formed value that nobody asked for is skipped exactly to its end, however deep it nests and whatever its strings
contain (`skipValue_of_derives`). The machine is followed through the value along its derivation: in the midst of open
arrays and objects, a value leaves it behind the value with the same arrays and objects open.
-/
namespace StreamMerge.Json

variable {bs rest gap ds : Bytes} {state state' : SkipState} {stack stack' : List Nest} {result : Except Fault Bytes}

/-! ## Single bytes -/

theorem skip_more {b : UInt8} (h : state.next stack b = .more state' stack') (hrest : skip state' stack' bs = result) :
    skip state stack (b :: bs) = result := by
  simp only [skip, h, hrest]

/-- What skipping comes to behind a value, with these arrays and objects open. -/
def leave (stack : List Nest) (rest : Bytes) : Except Fault Bytes :=
  match stack with
  | [] => .ok rest
  | _ => skip .after stack rest

theorem skip_closed {b : UInt8} (h : state.next stack b = SkipState.closed stack') :
    skip state stack (b :: rest) = leave stack' rest := by
  unfold skip
  rw [h]
  cases stack' <;> rfl

/-- In these states blanks are passed over. -/
theorem skip_blanks (hstate : ∀ b, isBlank b = true → state.next stack b = .more state stack) (hgap : Blanks gap)
    (bs : Bytes) : skip state stack (gap ++ bs) = skip state stack bs := by
  induction gap with
  | nil => rfl
  | cons b gap ih =>
    obtain ⟨hb, hgap⟩ := List.forall_mem_cons.1 hgap
    exact skip_more (hstate b hb) (ih hgap)

theorem next_after {nest : Nest} {b : UInt8} (hb : isBlank b = true) :
    SkipState.next .after (nest :: stack) b = .more .after (nest :: stack) := by
  cases nest <;> simp only [SkipState.next, SkipState.following, hb, if_true]

/-! ## Words, strings and numbers -/

theorem skip_word : ∀ {ws : Bytes}, ws ≠ [] → skip (.word ws) stack (ws ++ rest) = leave stack rest
  | [], h => absurd rfl h
  | [w], _ => skip_closed (by simp [SkipState.next])
  | w :: w' :: ws, _ => by
    have hnext : SkipState.next (.word (w :: w' :: ws)) stack w = .more (.word (w' :: ws)) stack := by
      simp [SkipState.next]
    exact skip_more hnext (skip_word (List.cons_ne_nil w' ws))

/-- A string is skipped up to its closing mark, and not only to a mark that is escaped. -/
theorem skip_inside {isName : Bool} (h : Inside bs) (rest : Bytes) :
    skip (.quoted isName) stack (bs ++ rest) = skip (.quoted isName) stack rest := by
  induction h with
  | nil => rfl
  | plain b hb _ ih =>
    have hnext : SkipState.next (.quoted isName) stack b = .more (.quoted isName) stack := by
      simp only [SkipState.next, if_neg hb.1, if_neg hb.2.1, if_neg hb.2.2]
    exact skip_more hnext ih
  | short b c hmem _ ih =>
    have htable : ∀ bc ∈ shortEscapes, bc.1 ≠ 0x75 ∧ (shortEscape? bc.1).isSome = true := by decide
    obtain ⟨hb, hsome⟩ := htable _ hmem
    have hnext : SkipState.next (.escaped isName) stack b = .more (.quoted isName) stack := by
      simp only [SkipState.next, if_neg hb, hsome, if_true]
    exact skip_more rfl (skip_more hnext ih)
  | number ds n hds _ ih =>
    have hsome : (hexNumber? ds).isSome = true := by rw [hexNumber?_of_fourHex hds]; rfl
    cases hds with
    | intro b₁ b₂ b₃ b₄ =>
      have hlast : SkipState.next (.number isName [b₁, b₂, b₃]) stack b₄ = .more (.quoted isName) stack := by
        have hsome : (hexNumber? ([b₁, b₂, b₃] ++ [b₄])).isSome = true := hsome
        simp only [SkipState.next, hsome]
        rfl
      exact skip_more rfl <| skip_more (b := 0x75) rfl <| skip_more rfl <| skip_more rfl <| skip_more rfl <|
        skip_more hlast ih

theorem skip_digits {part : NumberPart} (hmore : ∀ d, isDigit d = true → part.next d = .more part)
    (hrest : skip (.numeral part) stack bs = result) :
    ∀ {ds : Bytes}, (∀ d ∈ ds, isDigit d = true) → skip (.numeral part) stack (ds ++ bs) = result
  | [], _ => hrest
  | d :: ds, hds => by
    obtain ⟨hd, hds⟩ := List.forall_mem_cons.1 hds
    exact skip_more (by simp only [SkipState.next, hmore d hd]) (skip_digits hmore hrest hds)

/-- Digits of which the first leads to another part of a number. -/
theorem skip_newDigits {part part' : NumberPart} (hds : Digits ds)
    (hfirst : ∀ d, isDigit d = true → part.next d = .more part')
    (hmore : ∀ d, isDigit d = true → part'.next d = .more part')
    (hrest : skip (.numeral part') stack bs = result) : skip (.numeral part) stack (ds ++ bs) = result := by
  obtain ⟨hne, hds⟩ := hds
  cases ds with
  | nil => exact absurd rfl hne
  | cons d ds =>
    obtain ⟨hd, hds⟩ := List.forall_mem_cons.1 hds
    exact skip_more (by simp only [SkipState.next, hfirst d hd]) (skip_digits hmore hrest hds)

/-- A number that may end is ended by whatever ends a value. -/
theorem skip_numeral {part : NumberPart} (hpart : part.isComplete = true) (hrest : EndsValue rest) :
    skip (.numeral part) stack rest = leave stack rest := by
  cases rest with
  | nil =>
    unfold skip leave
    cases stack with
    | nil => simp [SkipState.atEnd, hpart]
    | cons nest stack => simp [skip, SkipState.atEnd, hpart]
  | cons b bs =>
    have hstop : part.next b = .stop := by
      have hb := hrest b rfl
      simp only [isBlank, Bool.or_eq_true, decide_eq_true_eq] at hb
      rcases hb with ((((rfl | rfl) | rfl) | rfl) | rfl | rfl | rfl) <;> cases part <;>
        first | rfl | cases hpart
    have hnext : SkipState.next (.numeral part) stack b = SkipState.next .after stack b := by
      simp only [SkipState.next, hstop]
    unfold skip
    rw [hnext]
    cases stack <;> rfl

theorem skip_power {part : NumberPart} (hpart : part = .zero ∨ part = .whole ∨ part = .fraction) {power : Bytes}
    (hpower : Power power) (hrest : EndsValue rest) :
    skip (.numeral part) stack (power ++ rest) = leave stack rest := by
  cases hpower with
  | none => exact skip_numeral (by rcases hpart with rfl | rfl | rfl <;> rfl) hrest
  | some b sign hb hsign hds =>
    have hnext : SkipState.next (.numeral part) stack b = .more (.numeral .exponent) stack := by
      rcases hpart with rfl | rfl | rfl <;> rcases hb with rfl | rfl <;> rfl
    have hdigits : ∀ part, part = .exponent ∨ part = .exponentSign → ∀ d, isDigit d = true →
        NumberPart.next part d = .more .exponentDigits := by
      intro part hpart d hd
      have hplus : d ≠ 0x2b := by rintro rfl; cases hd
      have hminus : d ≠ 0x2d := by rintro rfl; cases hd
      rcases hpart with rfl | rfl <;> simp [NumberPart.next, hd, hplus, hminus]
    have hmore : ∀ d, isDigit d = true → NumberPart.next .exponentDigits d = .more .exponentDigits :=
      fun d hd => by simp [NumberPart.next, hd]
    have hend : skip (.numeral .exponentDigits) stack rest = leave stack rest := skip_numeral rfl hrest
    have hunsigned := skip_newDigits hds (hdigits _ (Or.inl rfl)) hmore hend
    have hsigned := skip_newDigits hds (hdigits _ (Or.inr rfl)) hmore hend
    rw [List.cons_append, List.append_assoc]
    refine skip_more hnext ?_
    simp only [List.mem_cons, List.not_mem_nil, or_false] at hsign
    rcases hsign with rfl | rfl | rfl
    · exact hunsigned
    · exact skip_more rfl hsigned
    · exact skip_more rfl hsigned

theorem skip_fraction {part : NumberPart} (hpart : part = .zero ∨ part = .whole) {fraction power : Bytes}
    (hfraction : Fraction fraction) (hpower : Power power) (hrest : EndsValue rest) :
    skip (.numeral part) stack (fraction ++ (power ++ rest)) = leave stack rest := by
  cases hfraction with
  | none => exact skip_power (hpart.imp_right Or.inl) hpower hrest
  | some hds =>
    have hnext : SkipState.next (.numeral part) stack 0x2e = .more (.numeral .point) stack := by
      rcases hpart with rfl | rfl <;> rfl
    have hfirst : ∀ d, isDigit d = true → NumberPart.next .point d = .more .fraction :=
      fun d hd => by simp [NumberPart.next, hd]
    have hmore : ∀ d, isDigit d = true → NumberPart.next .fraction d = .more .fraction :=
      fun d hd => by simp [NumberPart.next, hd]
    exact skip_more hnext (skip_newDigits hds hfirst hmore (skip_power (Or.inr (Or.inr rfl)) hpower hrest))

/-- A number without its sign, where it may begin. -/
theorem skip_whole (hzero : state.next stack 0x30 = .more (.numeral .zero) stack)
    (hdigit : ∀ d, isDigit d = true → d ≠ 0x30 → state.next stack d = .more (.numeral .whole) stack)
    {whole fraction power : Bytes} (hwhole : Whole whole) (hfraction : Fraction fraction) (hpower : Power power)
    (hrest : EndsValue rest) : skip state stack (whole ++ (fraction ++ (power ++ rest))) = leave stack rest := by
  cases hwhole with
  | zero => exact skip_more hzero (skip_fraction (Or.inl rfl) hfraction hpower hrest)
  | more d hd hne hds =>
    have hmore : ∀ d, isDigit d = true → NumberPart.next .whole d = .more .whole :=
      fun d hd => by simp [NumberPart.next, hd]
    exact skip_more (hdigit d hd hne) (skip_digits hmore (skip_fraction (Or.inr rfl) hfraction hpower hrest) hds)

/-- The byte begins a value; neither is it a blank nor does it close an array. -/
def Opens (b : UInt8) : Prop := isBlank b = false ∧ b ≠ 0x5d

theorem opens_of_start {b : UInt8} {part : NumberPart} (h : NumberPart.start? b = some part) : Opens b :=
  ⟨isBlank_of_start h, by rintro rfl; cases h⟩

theorem next_start {b : UInt8} {part : NumberPart} (h : NumberPart.start? b = some part) :
    SkipState.next .value stack b = .more (.numeral part) stack := by
  have hne : b ≠ 0x22 ∧ b ≠ 0x5b ∧ b ≠ 0x7b ∧ b ≠ 0x6e ∧ b ≠ 0x74 ∧ b ≠ 0x66 := by
    refine ⟨?_, ?_, ?_, ?_, ?_, ?_⟩ <;> rintro rfl <;> cases h
  simp [SkipState.next, SkipState.begin, (opens_of_start h).1, hne, h]

/-! ## Values -/

/-- How a phrase is skipped where it may stand. -/
def Skips : Phrase → Bytes → Prop
  | .value, bs => (∃ b ∈ bs.head?, Opens b) ∧
      ∀ stack rest, EndsValue rest → skip .value stack (bs ++ rest) = leave stack rest
  | .element, bs => ∀ state nest outer rest, state = .value ∨ state = .firstItem → EndsValue rest →
      skip state (nest :: outer) (bs ++ rest) = skip .after (nest :: outer) rest
  | .elements, bs => ∀ state outer rest, state = .value ∨ state = .firstItem →
      skip state (.array :: outer) (bs ++ 0x5d :: rest) = leave outer rest
  | .member, bs => ∀ state outer rest, state = .name ∨ state = .firstName → EndsValue rest →
      skip state (.object :: outer) (bs ++ rest) = skip .after (.object :: outer) rest
  | .members, bs => ∀ state outer rest, state = .name ∨ state = .firstName →
      skip state (.object :: outer) (bs ++ 0x7d :: rest) = leave outer rest

theorem endsValue_blanks (hgap : Blanks gap) (hrest : EndsValue rest) : EndsValue (gap ++ rest) := by
  cases gap with
  | nil => exact hrest
  | cons b gap =>
    intro b' hb'
    obtain rfl := Option.some.inj hb'
    exact Or.inl (hgap b (by simp))

theorem endsValue_cons {b : UInt8} (hb : b = 0x2c ∨ b = 0x5d ∨ b = 0x7d) (rest : Bytes) : EndsValue (b :: rest) := by
  intro b' hb'
  obtain rfl := Option.some.inj hb'
  exact Or.inr hb

theorem skips_string {inside : Bytes} (h : Inside inside) : Skips .value (0x22 :: (inside ++ [0x22])) := by
  refine ⟨⟨0x22, rfl, rfl, by decide⟩, fun stack rest _ => ?_⟩
  have hclose : skip (.quoted false) stack (0x22 :: rest) = leave stack rest := skip_closed rfl
  rw [List.cons_append, List.append_assoc]
  exact skip_more rfl ((skip_inside h _).trans hclose)

theorem skips_number (h : Numeral bs) : Skips .value bs := by
  cases h with
  | intro sign hsign hwhole hfraction hpower =>
    have hdigit : ∀ d, isDigit d = true → d ≠ 0x30 → ∀ stack,
        SkipState.next .value stack d = .more (.numeral .whole) stack :=
      fun d hd hne stack => next_start (start_of_digit hd hne)
    have hafterSign : ∀ d, isDigit d = true → d ≠ 0x30 → ∀ stack,
        SkipState.next (.numeral .sign) stack d = .more (.numeral .whole) stack :=
      fun d hd hne stack => by simp [SkipState.next, NumberPart.next, hd, hne]
    simp only [List.mem_cons, List.not_mem_nil, or_false] at hsign
    rcases hsign with rfl | rfl
    · refine ⟨?_, fun stack rest hrest => ?_⟩
      · cases hwhole with
        | zero => exact ⟨0x30, rfl, rfl, by decide⟩
        | more d hd hne => exact ⟨d, rfl, opens_of_start (start_of_digit hd hne)⟩
      · have hskip := skip_whole rfl (fun d hd hne => hdigit d hd hne stack) hwhole hfraction hpower hrest
        simpa only [List.nil_append, List.append_assoc] using hskip
    · refine ⟨⟨0x2d, rfl, rfl, by decide⟩, fun stack rest hrest => ?_⟩
      have hskip := skip_whole rfl (fun d hd hne => hafterSign d hd hne stack) hwhole hfraction hpower hrest
      have hminus : skip .value stack (0x2d :: _) = leave stack rest := skip_more rfl hskip
      simpa only [List.cons_append, List.nil_append, List.append_assoc] using hminus

theorem skips_element {before value after : Bytes} (hbefore : Blanks before) (hvalue : Skips .value value)
    (hafter : Blanks after) : Skips .element (before ++ (value ++ after)) := by
  intro state nest outer rest hstate hrest
  obtain ⟨⟨b, hb, hblank, hclose⟩, hvalue⟩ := hvalue
  have hinside : skip .value (nest :: outer) (value ++ (after ++ rest)) = skip .after (nest :: outer) rest :=
    (hvalue (nest :: outer) (after ++ rest) (endsValue_blanks hafter hrest)).trans
      (skip_blanks (fun _ => next_after) hafter rest)
  have hblanks : ∀ b, isBlank b = true → state.next (nest :: outer) b = .more state (nest :: outer) := by
    intro b hb
    rcases hstate with rfl | rfl <;> simp only [SkipState.next, hb, if_true]
  rw [List.append_assoc, List.append_assoc, skip_blanks hblanks hbefore]
  rcases hstate with rfl | rfl
  · exact hinside
  · -- At its first byte it does not matter whether the array could have been closed.
    obtain ⟨bs, rfl⟩ := List.head?_eq_some_iff.1 hb
    rw [← hinside]
    simp only [List.cons_append, skip, SkipState.next, hblank, hclose, Bool.false_eq_true, if_false]

theorem skips_member {before name after bs : Bytes} (hbefore : Blanks before) (hname : Inside name)
    (hafter : Blanks after) (hvalue : Skips .element bs) :
    Skips .member (before ++ 0x22 :: (name ++ 0x22 :: (after ++ 0x3a :: bs))) := by
  intro state outer rest hstate hrest
  have hblanks : ∀ b, isBlank b = true → state.next (.object :: outer) b = .more state (.object :: outer) := by
    intro b hb
    rcases hstate with rfl | rfl <;> simp only [SkipState.next, hb, if_true]
  have hquote : state.next (.object :: outer) 0x22 = .more (.quoted true) (.object :: outer) := by
    rcases hstate with rfl | rfl <;> rfl
  have hcolon : skip .colon (.object :: outer) (after ++ 0x3a :: (bs ++ rest)) =
      skip .after (.object :: outer) rest := by
    rw [skip_blanks (fun b hb => by simp only [SkipState.next, hb, if_true]) hafter]
    exact skip_more rfl (hvalue .value .object outer rest (Or.inl rfl) hrest)
  have hunquoted : skip (.quoted true) (.object :: outer) (0x22 :: (after ++ 0x3a :: (bs ++ rest))) =
      skip .after (.object :: outer) rest := skip_more rfl hcolon
  simp only [List.append_assoc, List.cons_append]
  rw [skip_blanks hblanks hbefore]
  exact skip_more hquote ((skip_inside hname _).trans hunquoted)

/-- A value between brackets. -/
theorem skips_brackets {opening closing : UInt8} {nest : Nest} (hopens : Opens opening)
    (hopening : ∀ stack, SkipState.next .value stack opening = .more state (nest :: stack))
    (hinside : ∀ stack rest, skip state (nest :: stack) (bs ++ closing :: rest) = leave stack rest) :
    Skips .value (opening :: (bs ++ [closing])) := by
  refine ⟨⟨opening, rfl, hopens⟩, fun stack rest _ => ?_⟩
  rw [List.cons_append, List.append_assoc]
  exact skip_more (hopening stack) (hinside stack rest)

/-- **Every phrase is skipped exactly to its end.** -/
theorem skips_of_derives {phrase : Phrase} (h : Derives phrase bs) : Skips phrase bs := by
  have hcomma : ∀ rest, EndsValue (0x2c :: rest) := endsValue_cons (Or.inl rfl)
  have hbracket : ∀ rest, EndsValue (0x5d :: rest) := endsValue_cons (Or.inr (Or.inl rfl))
  have hbrace : ∀ rest, EndsValue (0x7d :: rest) := endsValue_cons (Or.inr (Or.inr rfl))
  have hgaps : ∀ {gap : Bytes} {state : SkipState} {stack : List Nest}, state = .firstItem ∨ state = .firstName →
      Blanks gap → ∀ bs, skip state stack (gap ++ bs) = skip state stack bs := by
    intro gap state stack hstate hgap bs
    refine skip_blanks (fun b hb => ?_) hgap bs
    rcases hstate with rfl | rfl <;> simp only [SkipState.next, hb, if_true]
  -- Along the derivation: what encloses a phrase is no more than a stack that comes back unchanged behind it.
  induction h with
  | null =>
    exact ⟨⟨_, rfl, rfl, by decide⟩, fun stack rest _ => skip_more rfl (skip_word (List.cons_ne_nil 0x75 [0x6c, 0x6c]))⟩
  | true =>
    exact ⟨⟨_, rfl, rfl, by decide⟩, fun stack rest _ => skip_more rfl (skip_word (List.cons_ne_nil 0x72 [0x75, 0x65]))⟩
  | false =>
    exact ⟨⟨_, rfl, rfl, by decide⟩,
      fun stack rest _ => skip_more rfl (skip_word (List.cons_ne_nil 0x61 [0x6c, 0x73, 0x65]))⟩
  | number h => exact skips_number h
  | string h => exact skips_string h
  | emptyArray hgap =>
    exact skips_brackets ⟨rfl, by decide⟩ (fun _ => rfl) fun stack rest =>
      (hgaps (Or.inl rfl) hgap _).trans (skip_closed rfl)
  | array _ ih =>
    exact skips_brackets ⟨rfl, by decide⟩ (fun _ => rfl) fun stack rest => ih .firstItem stack rest (Or.inr rfl)
  | emptyObject hgap =>
    exact skips_brackets ⟨rfl, by decide⟩ (fun _ => rfl) fun stack rest =>
      (hgaps (Or.inr rfl) hgap _).trans (skip_closed rfl)
  | object _ ih =>
    exact skips_brackets ⟨rfl, by decide⟩ (fun _ => rfl) fun stack rest => ih .firstName stack rest (Or.inr rfl)
  | element hbefore _ hafter ih => exact skips_element hbefore ih hafter
  | lastElement _ ih =>
    exact fun state outer rest hstate => (ih state .array outer _ hstate (hbracket rest)).trans (skip_closed rfl)
  | elements _ _ ih ihmore =>
    intro state outer rest hstate
    have hmore := ihmore .value outer rest (Or.inl rfl)
    rw [List.append_assoc]
    exact (ih state .array outer _ hstate (hcomma _)).trans (skip_more rfl hmore)
  | member hbefore hname hafter _ ih => exact skips_member hbefore hname hafter ih
  | lastMember _ ih =>
    exact fun state outer rest hstate => (ih state outer _ hstate (hbrace rest)).trans (skip_closed rfl)
  | members _ _ ih ihmore =>
    intro state outer rest hstate
    have hmore := ihmore .name outer rest (Or.inl rfl)
    rw [List.append_assoc]
    exact (ih state outer _ hstate (hcomma _)).trans (skip_more rfl hmore)

/-- **A well-formed value is skipped exactly to its end**, with the blanks before it. -/
theorem skipValue_of_derives {value : Bytes} (h : Derives .value value) (hgap : Blanks gap) (hrest : EndsValue rest) :
    skipValue (gap ++ (value ++ rest)) = .ok rest := by
  have hblanks : ∀ b, isBlank b = true → SkipState.next .value [] b = .more .value [] :=
    fun b hb => by simp only [SkipState.next, hb, if_true]
  exact (skip_blanks hblanks hgap _).trans ((skips_of_derives h).2 [] rest hrest)

end StreamMerge.Json
