import StreamMerge.Proofs.Gathering
import StreamMerge.Proofs.Repetition

/-!
# What settings do not change

Settings say how a merge is called, what is logged and how many elements are asked for at a time. None of this is in
the gist of a merge, and whoever collects the merge of some lists gets what there is to show for its gist
(`Program.mergedLists_eq`). So of the whole command line only the command and its inputs have a say in how the
program ends, once the log filter and the name of the profile are in order.
-/
namespace StreamMerge

variable {α β : Type} {L : Strategy α β}

/-! ## Merging lists -/

/-- The settings of a merge are none of its gist, and setting it up fails or not whatever they are. -/
theorem Merge.setUp_gist (L : Strategy α β) (u : Source α) (settings settings' : Settings) (sources : List u.State) :
    (∃ e es es', setUp L u settings sources = .error (e, es) ∧ setUp L u settings' sources = .error (e, es')) ∨
    ∃ m m', setUp L u settings sources = .ok m ∧ setUp L u settings' sources = .ok m' ∧ m.gist = m'.gist := by
  unfold setUp
  rcases declare L sources.length with ⟨e | handles, memory⟩
  · exact Or.inl ⟨e, _, _, rfl, rfl⟩
  · exact Or.inr ⟨_, _, rfl, rfl, rfl⟩

namespace Program

theorem mergedLists_of_setUp {settings : Settings} {inputs : List (List α)} {m : Merge L (scripted α)}
    (hm : Merge.setUp L (scripted α) settings (inputs.map Script.ofList) = .ok m) {batch : Nat}
    (hbatch : batch ≤ Credit.limit) : ∃ m', Merge.Heads m m' ∧ m'.stage.isFinal = true ∧
      mergedLists L settings batch inputs = m'.collection := by
  obtain ⟨s, hs⟩ := Session.collect_instant Script.instant_lists hm (Script.ahead_lists inputs) hbatch
  refine ⟨s.merge, hs.onCourse.heads, hs.finished, ?_⟩
  unfold mergedLists merged
  rw [hm]
  dsimp only
  rw [hs.result]

/-- **Lists are merged in the same way under all settings and in batches of any size.** -/
theorem mergedLists_eq (L : Strategy α β) (settings settings' : Settings) {batch batch' : Nat}
    (hbatch : batch ≤ Credit.limit) (hbatch' : batch' ≤ Credit.limit) (inputs : List (List α)) :
    mergedLists L settings batch inputs = mergedLists L settings' batch' inputs := by
  rcases Merge.setUp_gist L (scripted α) settings settings' (inputs.map Script.ofList) with
    ⟨e, es, es', he, he'⟩ | ⟨m, m', hm, hm', hgist⟩
  · unfold mergedLists merged
    rw [he, he']
  · obtain ⟨n, hheads, hfinal, heq⟩ := mergedLists_of_setUp hm hbatch
    obtain ⟨n', hheads', hfinal', heq'⟩ := mergedLists_of_setUp hm' hbatch'
    rw [heq, heq', hheads.collection_eq hheads' hgist hfinal hfinal']

theorem carryOut_eq (command : Command) (settings settings' : Settings) {batch batch' : Nat}
    (hbatch : batch ≤ Credit.limit) (hbatch' : batch' ≤ Credit.limit) (inputs : List String) :
    carryOut command settings batch inputs = carryOut command settings' batch' inputs := by
  cases command with
  | fair => exact mergedLists_eq _ settings settings' hbatch hbatch' _
  | roundRobin => exact mergedLists_eq _ settings settings' hbatch hbatch' _
  | preferred => exact mergedLists_eq _ settings settings' hbatch hbatch' _
  | zip => exact congrArg (Except.map (List.map showPair)) (mergedLists_eq _ settings settings' hbatch hbatch' _)

end Program

/-! ## The size of a batch -/

namespace Options

/-- The size of a batch, if it is given, fits 64 bits. -/
def Fits (o : Options) : Prop := ∀ n, o.batch = some n → n ≤ Credit.limit

variable {o o' : Options}

theorem number?_le {s : String} {n : Nat} (h : number? s = some n) : n ≤ Credit.limit := by
  simp only [number?, Option.ite_none_left_eq_some, Option.ite_none_right_eq_some, Option.some.injEq] at h
  obtain ⟨-, hlt, rfl⟩ := h
  exact Nat.le_sub_one_of_lt hlt

theorem Fits.set? (h : o.Fits) {name value : String} (hset : o.set? name value = some o') : o'.Fits := by
  unfold Options.set? at hset
  split at hset
  · split at hset
    · rename_i n _ hnumber
      cases hset
      exact fun k hk => Option.some.inj hk ▸ number?_le hnumber
    · cases hset
  · split at hset <;> cases hset
    exact h
  · split at hset <;> cases hset
    exact h
  · cases hset

theorem Fits.overriding (h : o.Fits) (h' : o'.Fits) : (o.overriding o').Fits := by
  intro n hn
  unfold Options.overriding at hn
  rcases hb : o.batch with _ | k
  · rw [hb] at hn
    exact h' n hn
  · rw [hb] at hn
    exact h n (hb.trans hn)

end Options

namespace CommandLine

/-- The options of what was read, if there are any. -/
def Reading.options? : Reading → Option Options
  | .ended o _ => some o
  | .command _ o _ => some o
  | _ => none

theorem fits_read (inside : Bool) (o : Options) (inputs args : List String) (h : o.Fits) :
    ∀ o', (read inside o inputs args).options? = some o' → o'.Fits := by
  fun_induction read inside o inputs args with
  | case1 | case2 | case3 | case6 => exact fun o' ho' => Option.some.inj ho' ▸ h
  | case5 _ _ _ _ _ _ ih => exact ih h
  | case10 _ _ _ _ _ _ ih => exact ih h
  | case14 _ _ _ _ _ _ _ _ hset ih => exact ih (h.set? hset)
  | case17 _ _ _ _ _ _ _ _ _ _ _ hset _ ih => exact ih (h.set? hset)
  | _ => exact fun _ => nofun

/-- The size of a batch that is given on the command line fits 64 bits. -/
theorem fits_parse {args : List String} {i : Invocation} (h : parse args = some (.run i)) : i.options.Fits := by
  have hnone : Options.none.Fits := fun _ => nofun
  have houter := fits_read false .none [] args hnone
  unfold parse at h
  split at h
  · cases h
  · cases h
  · cases h
  · split at h <;> first | cases h | (split at h <;> cases h)
  · rename_i name outer rest _ hread
    have hinner := fits_read true .none [] rest hnone
    rw [hread] at houter
    split at h
    · cases h
    · cases h
    · rename_i inner inputs _ hinside
      rw [hinside] at hinner
      split at h <;> cases h
      exact (hinner inner rfl).overriding (houter outer rfl)
    · cases h

end CommandLine

/-! ## Whole runs -/

namespace SettingsDirectory

theorem ofProblem_of_readIfPresent {t : FileTree} {p : Path} {e : SettingsError} (h : readIfPresent t p = .error e) :
    ∃ problem, e = ofProblem problem := by
  unfold readIfPresent at h
  split at h <;> cases h
  exact ⟨_, rfl⟩

theorem ofProblem_of_writeFile {t : FileTree} {p : Path} {contents : Bytes} {e : SettingsError}
    (h : (writeFile t p contents).1 = .error e) : ∃ problem, e = ofProblem problem := by
  unfold writeFile at h
  split at h <;> cases h
  exact ⟨_, rfl⟩

end SettingsDirectory

namespace Program

open SettingsDirectory

/-- A profile has settings exactly if its name is a proper one. -/
theorem settingsOf_isOk (profile : String) (t : FileTree) :
    (settingsOf profile t).1.isOk = Profiles.isName profile := by
  rw [settingsOf_fst]
  cases hp : Profiles.isName profile with
  | false => simp [Profiles.loadOrCreate, Profiles.load, hp, Except.isOk, Except.toBool]
  | true =>
    rcases hread : readIfPresent t (profilePath profile) with e | document
    · obtain ⟨problem, rfl⟩ := ofProblem_of_readIfPresent hread
      rw [Profiles.loadOrCreate_of_read_error hp (read_profiles hread)]
      rfl
    · rcases hslot : Profiles.slot document with _ | content
      · rw [Profiles.loadOrCreate_of_slot_none hp (read_profiles hread) hslot]
        rcases hwrite : (profiles.write profile Settings.standard.encode t).1 with e | _
        · obtain ⟨problem, rfl⟩ := ofProblem_of_writeFile hwrite
          rfl
        · rfl
      · rw [Profiles.loadOrCreate_of_slot hp (read_profiles hread) hslot]
        cases content <;> rfl

/-- The invocation gets past the log filter and the check of the profile's name. Without a settings directory no
profile is looked for. -/
structure Admits (around : Surroundings) (i : Invocation) : Prop where
  filter : filterAccepted around (i.options.log.getD (preferences (openDirectory around)).logFilter) = true
  profile : (openDirectory around).isSome = true →
    Profiles.isName (profileOf i (preferences (openDirectory around))) = true

theorem fst_arrange (around : Surroundings) (i : Invocation) :
    (arrange around i).1 = preferences (openDirectory around) := by
  unfold arrange
  dsimp only
  split
  · rfl
  · split
    · rfl
    · split <;> rfl

/-- Past these two checks there are settings to work with, and not otherwise. -/
theorem admits_iff (around : Surroundings) (i : Invocation) :
    Admits around i ↔ (arrange around i).2.1.isOk = true := by
  cases hfilter : filterAccepted around (i.options.log.getD (preferences (openDirectory around)).logFilter) with
  | false =>
    have hrefused : (arrange around i).2.1 = .error "invalid log filter" := by
      unfold arrange
      dsimp only
      rw [hfilter]
      rfl
    rw [hrefused]
    exact ⟨fun h => absurd h.filter (by rw [hfilter]; exact Bool.false_ne_true), nofun⟩
  | true =>
    rcases hopen : openDirectory around with _ | t
    · have harranged : (arrange around i).2.1 = .ok .standard := by
        unfold arrange
        dsimp only
        rw [hfilter, hopen]
        rfl
      rw [harranged]
      exact ⟨fun _ => rfl, fun _ => ⟨hfilter, fun h => by rw [hopen] at h; cases h⟩⟩
    · have hok : (arrange around i).2.1.isOk = Profiles.isName (profileOf i (preferences (openDirectory around))) := by
        rw [hopen] at hfilter
        rw [arrange_of_openDirectory hopen, hopen, ← settingsOf_isOk _ (savePreferences (preferences (some t)) t).2]
        unfold arrangeIn
        dsimp only
        rw [if_pos hfilter]
        rcases (settingsOf (profileOf i (preferences (some t))) (savePreferences (preferences (some t)) t).2).1 <;> rfl
      rw [hok]
      exact ⟨fun h => h.profile (by rw [hopen]; rfl), fun h => ⟨hfilter, fun _ => h⟩⟩

/-- The size of the batches in an invocation fits 64 bits. -/
theorem batch_le {i : Invocation} (h : i.options.Fits) (around : Surroundings) :
    i.options.batch.getD (arrange around i).1.batch ≤ Credit.limit := by
  rcases hbatch : i.options.batch with _ | n
  · rw [fst_arrange]
    exact batch_preferences_le _
  · exact h n hbatch

theorem run_of_admits {around : Surroundings} {args : List String} {i : Invocation}
    (hargs : CommandLine.parse args = some (.run i)) (hadmits : Admits around i) :
    ∃ settings batch, batch ≤ Credit.limit ∧ (run around args).1 =
      match carryOut i.command settings batch i.inputs with
      | .ok lines => .printed lines
      | .error e => .failed e.message := by
  have hok := (admits_iff around i).1 hadmits
  have hbatch := batch_le (CommandLine.fits_parse hargs) around
  have hrun : run around args = perform around i := by simp only [run, hargs]
  rcases hsettings : (arrange around i).2.1 with message | settings
  · rw [hsettings] at hok
    cases hok
  · refine ⟨{ settings with tracing := i.options.trace || settings.tracing }, _, hbatch, ?_⟩
    rw [hrun, perform_eq, hsettings]
    rfl

/-- **How a run ends is a matter of its command and its inputs only.** Two runs that get past the log filter and the
check of the profile's name end in the same way, whatever options are given and in whatever order, whatever the
settings directory holds, and whether or not there is one. -/
theorem run_eq_of_admits {around around' : Surroundings} {args args' : List String} {i i' : Invocation}
    (hargs : CommandLine.parse args = some (.run i)) (hargs' : CommandLine.parse args' = some (.run i'))
    (hcommand : i.command = i'.command) (hinputs : i.inputs = i'.inputs)
    (hadmits : Admits around i) (hadmits' : Admits around' i') : (run around args).1 = (run around' args').1 := by
  obtain ⟨settings, batch, hbatch, hrun⟩ := run_of_admits hargs hadmits
  obtain ⟨settings', batch', hbatch', hrun'⟩ := run_of_admits hargs' hadmits'
  rw [hrun, hrun', hcommand, hinputs, carryOut_eq _ settings settings' hbatch hbatch']

/-- Without a settings directory and in batches of nothing, and with a broken file of preferences, a profile and the
largest batch. -/
theorem run_eq_of_admits_zip :
    let around : Surroundings := ⟨fun _ => true, none, none⟩
    let around' : Surroundings := ⟨(· = "info"), some "info", some ⟨[(["prefs.json"], .file [0x78])]⟩⟩
    let args := ["--batch", "0", "--trace", "zip", "a,b", "c"]
    let args' := ["zip", "--profile", "work", "a,b", "--batch", "18446744073709551615", "c"]
    (run around args).1 = (run around' args').1 ∧ (run around args).1 = .printed ["(a, c)"] := by
  intro around around' args args'
  have hargs : CommandLine.parse args = some (.run ⟨⟨some 0, true, none, none⟩, .zip, ["a,b", "c"]⟩) := by rfl
  have hargs' : CommandLine.parse args' =
      some (.run ⟨⟨some 18446744073709551615, false, none, some "work"⟩, .zip, ["a,b", "c"]⟩) := by rfl
  have hadmits : Admits around ⟨⟨some 0, true, none, none⟩, .zip, ["a,b", "c"]⟩ := ⟨by rfl, by decide⟩
  have hadmits' : Admits around' ⟨⟨some 18446744073709551615, false, none, some "work"⟩, .zip, ["a,b", "c"]⟩ :=
    ⟨by decide, by decide⟩
  exact ⟨run_eq_of_admits hargs hargs' rfl rfl hadmits hadmits', by decide +kernel⟩

end Program
end StreamMerge
