import StreamMerge.Program
import StreamMerge.Proofs.Shelves

/-!
# Running the program again

A run puts its settings directory in order: the directory of profiles is there, the preferences are written out,
and the profile that was used exists. A second run finds what the first left, works with the same preferences and
settings, and writes only what is there already.

Preferences and profiles lie in different files, so each part of a run can be repeated by itself. What lies between
the two writings of the preferences is a profile that was created, which is why the trees of the two runs have the
same entries, and not the same order of them.
-/
namespace StreamMerge

open SettingsDirectory

variable {t t' : FileTree} {p : Preferences} {profile : String}

namespace SettingsDirectory

theorem read_profiles {result : Except SettingsError (Option Bytes)}
    (h : readIfPresent t (profilePath profile) = result) :
    profiles.read profile t = (result, t) := congrArg (·, t) h

/-! ## Preferences -/

theorem preferencesPath_ne_profilePath (profile : String) : preferencesPath ≠ profilePath profile :=
  fun h => absurd (congrArg List.length h) (by simp [profilePath, preferencesPath])

theorem profilesPath_ne_preferencesPath : profilesPath ≠ preferencesPath := by decide

theorem profilesPath_ne_profilePath (profile : String) : profilesPath ≠ profilePath profile :=
  fun h => absurd (congrArg List.length h) (by simp [profilePath, profilesPath])

/-- A file directly in the directory is found there. -/
theorem readIfPresent_preferencesPath (t : FileTree) : readIfPresent t preferencesPath =
    match t.entry? preferencesPath with
    | none => .ok none
    | some .directory => .error (ofProblem .isDirectory)
    | some (.file contents) => .ok (some contents) := by
  have hfollow : t.follow [] preferencesPath = .ok (t.entry? preferencesPath) := rfl
  simp only [readIfPresent, FileTree.read, hfollow]
  rcases t.entry? preferencesPath with _ | (_ | _) <;> rfl

theorem savePreferences_eq (p : Preferences) (t : FileTree) : savePreferences p t =
    if t.entry? preferencesPath = some .directory then (.error (ofProblem .isDirectory), t)
    else (.ok (), t.put preferencesPath (.file p.encode)) := by
  have hfollow : t.follow [] preferencesPath = .ok (t.entry? preferencesPath) := rfl
  simp only [savePreferences, writeFile, FileTree.write, hfollow]
  rcases t.entry? preferencesPath with _ | (_ | _) <;> rfl

theorem entry?_savePreferences (p : Preferences) (t : FileTree) {q : Path} (hq : q ≠ preferencesPath) :
    FileTree.entry? (savePreferences p t).2 q = t.entry? q := by
  rw [savePreferences_eq]
  split
  · rfl
  · exact (FileTree.entry?_put t (List.cons_ne_nil _ _) _ q).trans (if_neg hq)

/-- **Preferences that were saved are loaded**, if the size of a batch fits 64 bits. -/
theorem loadPreferences_savePreferences (hp : p.batch ≤ Json.largest64)
    (ht : t.entry? preferencesPath ≠ some .directory) : (savePreferences p t).1 = .ok () ∧
      loadPreferences (savePreferences p t).2 = .ok (some p) := by
  have hread : readIfPresent (t.put preferencesPath (.file p.encode)) preferencesPath = .ok (some p.encode) :=
    readIfPresent_put_self (List.cons_ne_nil _ _) rfl
  rw [savePreferences_eq, if_neg ht]
  refine ⟨rfl, ?_⟩
  simp only [loadPreferences, hread, Preferences.decode_encode p hp]

/-- There is nothing to be done to save `p`: it is there already, or it cannot be saved. -/
def Holds (t : FileTree) (p : Preferences) : Prop :=
  t.entry? preferencesPath = some .directory ∨ t.entry? preferencesPath = some (.file p.encode)

theorem holds_savePreferences (p : Preferences) (t : FileTree) : Holds (savePreferences p t).2 p := by
  rw [savePreferences_eq]
  split
  · rename_i h
    exact Or.inl h
  · exact Or.inr ((FileTree.entry?_put t (List.cons_ne_nil _ _) _ _).trans (if_pos rfl))

theorem Holds.savePreferences (h : Holds t p) : (savePreferences p t).2.Same t := by
  rw [savePreferences_eq]
  rcases h with h | h
  · rw [if_pos h]
    exact FileTree.Same.refl t
  · rw [if_neg (by simp [h])]
    exact FileTree.same_put (List.cons_ne_nil _ _) h

end SettingsDirectory

namespace Program

theorem preferences_congr (h : t.entry? preferencesPath = t'.entry? preferencesPath) :
    preferences (some t) = preferences (some t') := by
  simp only [preferences, Option.map_some, loadPreferences, readIfPresent_preferencesPath, h]

/-- The preferences in use have a batch that fits 64 bits. -/
theorem batch_preferences_le (t : Option FileTree) : (preferences t).batch ≤ Json.largest64 := by
  unfold preferences
  split
  · rename_i p h
    obtain ⟨t, -, ht⟩ := Option.map_eq_some_iff.1 h
    unfold loadPreferences at ht
    split at ht
    · cases ht
    · cases ht
    · split at ht <;> cases ht
      rename_i hdecode
      exact Preferences.batch_le_of_decode hdecode
  · decide

/-- The preferences in use are still in use when they have been saved. -/
theorem preferences_savePreferences (t : FileTree) :
    preferences (some (savePreferences (preferences (some t)) t).2) = preferences (some t) := by
  by_cases hentry : t.entry? preferencesPath = some .directory
  · rw [savePreferences_eq, if_pos hentry]
  · have hload := (loadPreferences_savePreferences (batch_preferences_le (some t)) hentry).2
    simp only [preferences, Option.map_some] at hload ⊢
    rw [hload]

/-! ## Profiles -/

theorem settingsOf_snd (profile : String) (t : FileTree) :
    (settingsOf profile t).2 = (Profiles.loadOrCreate profiles profile t).2 := by
  unfold settingsOf
  split <;> rename_i h <;> rw [h]

/-- What using a profile does to the directory: nothing, or the profile is created. -/
theorem settingsOf_cases (profile : String) (t : FileTree) : (settingsOf profile t).2 = t ∨
    Profiles.isName profile = true ∧ (∃ entry, t.follow [] (profilePath profile) = .ok entry) ∧
      settingsOf profile t = (.ok .standard, t.put (profilePath profile) (.file Settings.standard.encode)) := by
  by_cases hp : Profiles.isName profile = true
  case neg =>
    left
    simp [settingsOf_snd, Profiles.loadOrCreate, Profiles.load, hp]
  rcases hread : readIfPresent t (profilePath profile) with e | document <;> replace hread := read_profiles hread
  · left
    rw [settingsOf_snd, Profiles.loadOrCreate_of_read_error hp hread]
  · rcases hslot : Profiles.slot document with _ | content
    · have hcreate := Profiles.loadOrCreate_of_slot_none hp hread hslot
      rcases writeFile_cases t (profilePath profile) Settings.standard.encode with ⟨e, he⟩ | ⟨hok, hentry⟩
      · left
        have hwrite : profiles.write profile Settings.standard.encode t = _ := he
        rw [settingsOf_snd, hcreate, hwrite]
      · right
        have hwrite : profiles.write profile Settings.standard.encode t = _ := hok
        rw [hwrite] at hcreate
        refine ⟨hp, hentry, ?_⟩
        simp only [settingsOf, hcreate, Except.map]
    · left
      rw [settingsOf_snd, Profiles.loadOrCreate_of_slot hp hread hslot]

/-- A profile that was used is there, and using it again changes nothing. -/
theorem settingsOf_again (profile : String) (t : FileTree) :
    settingsOf profile (settingsOf profile t).2 = settingsOf profile t := by
  rcases settingsOf_cases profile t with hsame | ⟨hp, ⟨entry, hentry⟩, hcreated⟩
  · rw [hsame]
  · rw [hcreated]
    have hcontents : readIfPresent (t.put (profilePath profile) (.file Settings.standard.encode))
        (profilePath profile) = .ok (some Settings.standard.encode) :=
      readIfPresent_put_self (profilePath_ne_nil profile) hentry
    have hload := Profiles.loadOrCreate_of_slot hp (read_profiles hcontents) (Profiles.slot_encode .standard)
    simp only [settingsOf, hload, Except.mapError]

theorem entry?_settingsOf (profile : String) (t : FileTree) {q : Path} (hq : q ≠ profilePath profile) :
    FileTree.entry? (settingsOf profile t).2 q = t.entry? q := by
  rcases settingsOf_cases profile t with hsame | ⟨-, -, hcreated⟩
  · rw [hsame]
  · rw [hcreated]
    exact (FileTree.entry?_put t (List.cons_ne_nil _ _) _ q).trans (if_neg hq)

theorem settingsOf_fst (profile : String) (t : FileTree) : (settingsOf profile t).1 =
    match (Profiles.loadOrCreate profiles profile t).1 with
    | .error (.invalidProfile name) => .error (.invalidProfile name)
    | .error _ => .ok .standard
    | .ok settings => .ok settings := by
  unfold settingsOf
  rcases Profiles.loadOrCreate profiles profile t with ⟨(_ | _ | _ | _) | _, _⟩ <;> rfl

theorem loadOrCreate_of_same (h : t.Same t') (profile : String) :
    (Profiles.loadOrCreate profiles profile t).1 = (Profiles.loadOrCreate profiles profile t').1 ∧
      (Profiles.loadOrCreate profiles profile t).2.Same (Profiles.loadOrCreate profiles profile t').2 := by
  by_cases hp : Profiles.isName profile = true
  case neg =>
    simp only [Profiles.loadOrCreate, Profiles.load, hp]
    exact ⟨rfl, h⟩
  have hsame := readIfPresent_of_same h (profilePath profile)
  rcases hresult : readIfPresent t (profilePath profile) with e | document <;> rw [hresult] at hsame
  · rw [Profiles.loadOrCreate_of_read_error hp (read_profiles hresult),
      Profiles.loadOrCreate_of_read_error hp (read_profiles hsame.symm)]
    exact ⟨rfl, h⟩
  · rcases hslot : Profiles.slot document with _ | content
    · rw [Profiles.loadOrCreate_of_slot_none hp (read_profiles hresult) hslot,
        Profiles.loadOrCreate_of_slot_none hp (read_profiles hsame.symm) hslot]
      obtain ⟨hresult, hleft⟩ := writeFile_of_same h (profilePath_ne_nil profile) Settings.standard.encode
      exact ⟨congrArg (Except.map fun _ => Settings.standard) hresult, hleft⟩
    · rw [Profiles.loadOrCreate_of_slot hp (read_profiles hresult) hslot,
        Profiles.loadOrCreate_of_slot hp (read_profiles hsame.symm) hslot]
      exact ⟨rfl, h⟩

/-- Using a profile depends only on what is found in the directory. -/
theorem settingsOf_of_same (h : t.Same t') (profile : String) :
    (settingsOf profile t).1 = (settingsOf profile t').1 ∧
      (settingsOf profile t).2.Same (settingsOf profile t').2 := by
  obtain ⟨hresult, hleft⟩ := loadOrCreate_of_same h profile
  rw [settingsOf_fst, settingsOf_fst, settingsOf_snd, settingsOf_snd, hresult]
  exact ⟨rfl, hleft⟩

/-! ## A whole run -/

/-- What a run arranges in a prepared directory. -/
def arrangeIn (around : Surroundings) (i : Invocation) (t : FileTree) :
    (Preferences × Except String Settings) × FileTree :=
  let p := preferences (some t)
  let t := (savePreferences p t).2
  if filterAccepted around (i.options.log.getD p.logFilter) then
    ((p, (settingsOf (profileOf i p) t).1.mapError SettingsError.message), (settingsOf (profileOf i p) t).2)
  else ((p, .error "invalid log filter"), t)

theorem arrange_of_openDirectory {around : Surroundings} {i : Invocation} (h : openDirectory around = some t) :
    arrange around i = ((arrangeIn around i t).1.1, (arrangeIn around i t).1.2, some (arrangeIn around i t).2) := by
  simp only [arrange, h, arrangeIn, Option.map_some]
  by_cases hfilter : filterAccepted around (i.options.log.getD (preferences (some t)).logFilter) = true
  · simp only [hfilter, Bool.not_true, Bool.false_eq_true, if_false, if_true]
    rcases settingsOf (profileOf i (preferences (some t))) (savePreferences (preferences (some t)) t).2 with
      ⟨_ | _, _⟩ <;> rfl
  · simp only [hfilter, Bool.not_false, if_true, Bool.false_eq_true, if_false]

/-- A run leaves its directory prepared. -/
theorem entry?_arrangeIn (around : Surroundings) (i : Invocation) (t : FileTree) :
    FileTree.entry? (arrangeIn around i t).2 profilesPath = t.entry? profilesPath := by
  have hsave := entry?_savePreferences (preferences (some t)) t profilesPath_ne_preferencesPath
  unfold arrangeIn
  dsimp only
  split
  · exact (entry?_settingsOf _ _ (profilesPath_ne_profilePath _)).trans hsave
  · exact hsave

/-- **A run in the directory that it left arranges the same things**, and leaves the same. -/
theorem arrangeIn_again (around : Surroundings) (i : Invocation) (t : FileTree) :
    (arrangeIn around i (arrangeIn around i t).2).1 = (arrangeIn around i t).1 ∧
      (arrangeIn around i (arrangeIn around i t).2).2.Same (arrangeIn around i t).2 := by
  let p := preferences (some t)
  let saved := (savePreferences p t).2
  have hprefs : preferences (some saved) = p := preferences_savePreferences t
  have hholds : Holds saved p := holds_savePreferences p t
  by_cases hfilter : filterAccepted around (i.options.log.getD p.logFilter) = true
  · let left := (settingsOf (profileOf i p) saved).2
    have hentry : left.entry? preferencesPath = saved.entry? preferencesPath :=
      entry?_settingsOf _ saved (preferencesPath_ne_profilePath _)
    have hprefs' : preferences (some left) = p := (preferences_congr hentry).trans hprefs
    have hholds' : Holds left p := by unfold Holds at hholds ⊢; rwa [hentry]
    have hagain := settingsOf_of_same hholds'.savePreferences (profileOf i p)
    have hleft : settingsOf (profileOf i p) left = settingsOf (profileOf i p) saved := settingsOf_again _ saved
    have hrun : arrangeIn around i t =
        ((p, (settingsOf (profileOf i p) saved).1.mapError SettingsError.message), left) := if_pos hfilter
    rw [hleft] at hagain
    rw [hrun]
    simp only [arrangeIn, hprefs', if_pos hfilter, hagain.1]
    exact ⟨trivial, hagain.2⟩
  · have hrun : arrangeIn around i t = ((p, .error "invalid log filter"), saved) := if_neg hfilter
    rw [hrun]
    simp only [arrangeIn, hprefs, if_neg hfilter]
    exact ⟨trivial, hholds.savePreferences⟩

/-- How a run ends, once everything is arranged. -/
def endingOf (i : Invocation) (p : Preferences) (settings : Except String Settings) : Ending :=
  match settings with
  | .error message => .failed message
  | .ok settings =>
    match carryOut i.command { settings with tracing := i.options.trace || settings.tracing }
        (i.options.batch.getD p.batch) i.inputs with
    | .ok lines => .printed lines
    | .error e => .failed e.message

theorem perform_eq (around : Surroundings) (i : Invocation) : perform around i =
    (endingOf i (arrange around i).1 (arrange around i).2.1, (arrange around i).2.2 <|> around.directory) := by
  unfold perform endingOf
  rcases arrange around i with ⟨p, message | settings, t⟩
  · rfl
  · dsimp only
    rcases carryOut i.command { settings with tracing := i.options.trace || settings.tracing }
      (i.options.batch.getD p.batch) i.inputs with _ | _ <;> rfl

/-- The same directory: in both cases none, or one with the same contents. -/
def SameDirectory : Option FileTree → Option FileTree → Prop
  | some t, some t' => t.Same t'
  | none, none => True
  | _, _ => False

theorem SameDirectory.refl : ∀ t : Option FileTree, SameDirectory t t
  | some t => FileTree.Same.refl t
  | none => trivial

theorem entry?_of_openDirectory {around : Surroundings} (h : openDirectory around = some t) :
    t.entry? profilesPath = some .directory := by
  obtain ⟨t₀, -, ht₀⟩ := Option.bind_eq_some_iff.1 h
  split at ht₀ <;> cases ht₀
  rename_i hprepare
  exact entry?_of_prepare hprepare

theorem openDirectory_of_entry? {around : Surroundings} (hdirectory : around.directory = some t)
    (h : t.entry? profilesPath = some .directory) : openDirectory around = some t := by
  simp only [openDirectory, hdirectory, Option.bind_some, prepare_eq, h]

theorem arrange_of_openDirectory_none {around : Surroundings} {i : Invocation} (h : openDirectory around = none) :
    (arrange around i).2.2 = none := by
  simp only [arrange, h, Option.map_none]
  split <;> rfl

theorem perform_again (around : Surroundings) (i : Invocation) :
    let again := { around with directory := (perform around i).2 }
    (arrange again i).1 = (arrange around i).1 ∧ (arrange again i).2.1 = (arrange around i).2.1 ∧
      (perform again i).1 = (perform around i).1 ∧ SameDirectory (perform again i).2 (perform around i).2 := by
  intro again
  rcases hopen : openDirectory around with _ | t
  · -- the directory cannot be used, and is the same in both runs
    have hleft : (perform around i).2 = around.directory := by
      rw [perform_eq, arrange_of_openDirectory_none hopen]
      rfl
    have hagain : again = around := by simp only [again, hleft]
    rw [hagain]
    exact ⟨rfl, rfl, rfl, SameDirectory.refl _⟩
  · have hfirst := arrange_of_openDirectory (i := i) hopen
    have hleft : (perform around i).2 = some (arrangeIn around i t).2 := by
      rw [perform_eq, hfirst]
      rfl
    have hopen' : openDirectory again = some (arrangeIn around i t).2 :=
      openDirectory_of_entry? hleft ((entry?_arrangeIn around i t).trans (entry?_of_openDirectory hopen))
    obtain ⟨harranged, hsame⟩ := arrangeIn_again around i t
    have hsecond : arrange again i = ((arrangeIn around i t).1.1, (arrangeIn around i t).1.2,
        some (arrangeIn around i (arrangeIn around i t).2).2) := by
      rw [arrange_of_openDirectory hopen', ← harranged]
      rfl
    rw [perform_eq, perform_eq, hfirst, hsecond]
    exact ⟨rfl, rfl, rfl, hsame⟩

/-- A run that does nothing with the directory does the same again. -/
theorem run_again_of_left_alone (around : Surroundings) {args : List String} {e : Ending}
    (h : ∀ around, run around args = (e, around.directory)) :
    let again := { around with directory := (run around args).2 }
    (run again args).1 = (run around args).1 ∧ SameDirectory (run again args).2 (run around args).2 := by
  intro again
  have hagain : again = around := by simp only [again, h]
  rw [hagain]
  exact ⟨rfl, SameDirectory.refl _⟩

/-- **To run the program again changes nothing.** Whatever is in the settings directory and whatever the arguments
are, a second run in the directory that the first one left ends as the first did and leaves the same entries at all
paths; and if there was something to run, it works with the same preferences and the same settings. In particular,
preferences that are saved are those that are loaded afterwards, unless their file is a directory. -/
theorem run_again (around : Surroundings) (args : List String) :
    let again := { around with directory := (run around args).2 }
    (run again args).1 = (run around args).1 ∧ SameDirectory (run again args).2 (run around args).2 ∧
    (∀ i, CommandLine.parse args = some (.run i) →
      (arrange again i).1 = (arrange around i).1 ∧ (arrange again i).2.1 = (arrange around i).2.1) ∧
    ∀ (p : Preferences) (t : FileTree), p.batch ≤ Json.largest64 → t.entry? preferencesPath ≠ some .directory →
      (savePreferences p t).1 = .ok () ∧ loadPreferences (savePreferences p t).2 = .ok (some p) := by
  intro again
  have hprefs : ∀ (p : Preferences) (t : FileTree), p.batch ≤ Json.largest64 →
      t.entry? preferencesPath ≠ some .directory →
      (savePreferences p t).1 = .ok () ∧ loadPreferences (savePreferences p t).2 = .ok (some p) :=
    fun p t => loadPreferences_savePreferences
  rcases hparse : CommandLine.parse args with _ | (i | _)
  · have hrun : ∀ around, run around args = (.usage, around.directory) := fun _ => by simp only [run, hparse]
    obtain ⟨hending, hdirectory⟩ := run_again_of_left_alone around hrun
    exact ⟨hending, hdirectory, fun _ => nofun, hprefs⟩
  · have hrun : ∀ around, run around args = perform around i := fun _ => by simp only [run, hparse]
    obtain ⟨hp, hsettings, hending, hdirectory⟩ := perform_again around i
    rw [← hrun] at hp hsettings hending hdirectory
    rw [← hrun] at hending hdirectory
    refine ⟨hending, hdirectory, fun i' h => ?_, hprefs⟩
    cases h
    exact ⟨hp, hsettings⟩
  · have hrun : ∀ around, run around args = (.printed CommandLine.usage, around.directory) :=
      fun _ => by simp only [run, hparse]
    obtain ⟨hending, hdirectory⟩ := run_again_of_left_alone around hrun
    exact ⟨hending, hdirectory, fun _ => nofun, hprefs⟩

theorem run_again_with_broken_preferences :
    let around : Surroundings := ⟨fun _ => true, none, some ⟨[(["prefs.json"], .file [0x78])]⟩⟩
    let args := ["--batch", "2", "fair", "a,b", "c"]
    let again := { around with directory := (run around args).2 }
    let p : Preferences := ⟨0, "a\"b", "work"⟩
    (∃ i, CommandLine.parse args = some (.run i) ∧
      (arrange again i).1 = (arrange around i).1 ∧ (arrange again i).2.1 = (arrange around i).2.1) ∧
    p.batch ≤ Json.largest64 ∧ FileTree.empty.entry? preferencesPath ≠ some .directory ∧
    loadPreferences (savePreferences p .empty).2 = .ok (some p) := by
  intro around args again p
  obtain ⟨-, -, harranged, hsaved⟩ := run_again around args
  have hparse : CommandLine.parse args =
      some (.run ⟨⟨some 2, false, none, none⟩, .fair, ["a,b", "c"]⟩) := by rfl
  have hbatch : p.batch ≤ Json.largest64 := by decide
  have hentry : FileTree.empty.entry? preferencesPath ≠ some .directory := by decide
  exact ⟨⟨_, hparse, harranged _ hparse⟩, hbatch, hentry, (hsaved p .empty hbatch hentry).2⟩

end Program
end StreamMerge
