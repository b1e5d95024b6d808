import Mathlib.Logic.Function.Basic
import StreamMerge.Profiles.Memory
import StreamMerge.Proofs.Files
import StreamMerge.Proofs.RoundTrip

/-!
# Profiles are a map from names to settings

A backend that keeps what is written to it turns into a shelf: under each name there are settings, or a document
that is none, or nothing. Queries about profiles are answered from the shelf, and leave on it what they should,
whatever the settings are and whichever calls of the backend fail.
-/
namespace StreamMerge

variable {S : Type}

/-- The backend keeps under each name what was last written there: `kept s` is what there is in the state `s`.
Calls may fail; one that fails changes nothing. -/
structure Backend.Keeps (b : Backend S) (kept : S → String → Option Bytes) : Prop where
  read_ok : ∀ {name s document s'}, b.read name s = (.ok document, s') → document = kept s name
  kept_read : ∀ name s, kept (b.read name s).2 = kept s
  write_ok : ∀ {name document s s'}, b.write name document s = (.ok (), s') →
    kept s' = Function.update (kept s) name (some document)
  write_error : ∀ {name document s e s'}, b.write name document s = (.error e, s') → kept s' = kept s

/-- No call of the backend ever fails. -/
def Backend.NeverFails (b : Backend S) : Prop :=
  ∀ name document s, (b.read name s).1.isOk = true ∧ (b.write name document s).1.isOk = true

/-! ## In memory and in files -/

/-- Documents in memory are kept. -/
theorem MemoryStore.keeps_backend : MemoryStore.backend.Keeps MemoryStore.get? where
  read_ok {name m document m'} h := by
    simp only [backend] at h
    split at h <;> cases h
    rfl
  kept_read name m := by
    simp only [backend]
    split <;> rfl
  write_ok {name document m m'} h := by
    simp only [backend] at h
    split at h <;> cases h
    funext name'
    rw [Function.update_apply]
    exact lookup_replace name name' document m.documents
  write_error {name document m e m'} h := by
    simp only [backend] at h
    split at h <;> cases h
    rfl

/-- The document of a profile in the settings directory, where it can be read. -/
def SettingsDirectory.document? (t : FileTree) (profile : String) : Option Bytes :=
  match readIfPresent t (profilePath profile) with
  | .ok document => document
  | .error _ => none

/-- The settings directory keeps the documents of profiles. -/
theorem SettingsDirectory.keeps_profiles : profiles.Keeps document? where
  read_ok {name t document t'} h := by
    have hread : readIfPresent t (profilePath name) = .ok document := congrArg Prod.fst h
    simp only [document?, hread]
  kept_read name t := rfl
  write_ok {name document t t'} h := by
    rcases writeFile_cases t (profilePath name) document with ⟨e, he⟩ | ⟨hok, entry, hentry⟩
    · cases h.symm.trans he
    · cases h.symm.trans hok
      have hpath : profilePath name ≠ [] := List.cons_ne_nil _ _
      funext name'
      rw [Function.update_apply]
      split
      · rename_i hname
        rw [hname, document?, readIfPresent_put_self hpath hentry]
      · rename_i hname
        rw [document?, readIfPresent_put_of_not_prefix hpath _ (not_prefix_profilePath (Ne.symm hname))]
        rfl
  write_error {name document t e t'} h := by
    rcases writeFile_cases t (profilePath name) document with ⟨e', he⟩ | ⟨hok, -⟩
    · cases h.symm.trans he
      rfl
    · cases h.symm.trans hok

namespace Profiles

/-! ## Queries -/

/-- What can be asked of the profiles. -/
inductive Query where
  | load (profile : String)
  | save (profile : String) (settings : Settings)
  | loadOrCreate (profile : String)
  deriving DecidableEq, Repr

/-- The name a query is about. -/
def Query.profile : Query → String
  | .load p | .save p _ | .loadOrCreate p => p

/-- A good answer to a query. -/
inductive Answer where
  /-- The settings that are saved, if any are. -/
  | found (settings : Option Settings)
  | saved
  | settings (settings : Settings)
  deriving DecidableEq, Repr

/-- Answers a query. -/
def serve (b : Backend S) (q : Query) (s : S) : Except SettingsError Answer × S :=
  match q with
  | .load p => ((load b p s).1.map .found, (load b p s).2)
  | .save p c => ((save b p c s).1.map fun _ => .saved, (save b p c s).2)
  | .loadOrCreate p => ((loadOrCreate b p s).1.map .settings, (loadOrCreate b p s).2)

/-- Answers one query after the other. -/
def serveAll (b : Backend S) : List Query → S → List (Except SettingsError Answer) × S
  | [], s => ([], s)
  | q :: qs, s =>
    let (a, s) := serve b q s
    let (as, s) := serveAll b qs s
    (a :: as, s)

/-! ## The shelf -/

/-- What is on the shelf under a name: settings, or a document that cannot be read as settings. -/
abbrev Slot := Option (Except Json.Fault Settings)

/-- What the document under a name is taken for. An empty one counts as not saved. -/
def slot : Option Bytes → Slot
  | none | some [] => none
  | some document => some (Settings.decode document)

/-- Settings by their names. -/
abbrev Shelf := String → Slot

/-- The shelf that documents make. -/
def shelf (kept : String → Option Bytes) : Shelf := fun name => slot (kept name)

namespace Shelf

/-- The answer to a query about a proper name, when no call fails. -/
def serve (shelf : Shelf) : Query → Except SettingsError Answer × Shelf
  | .load p =>
    match shelf p with
    | none => (.ok (.found none), shelf)
    | some (.ok c) => (.ok (.found (some c)), shelf)
    | some (.error fault) => (.error (.malformed p fault), shelf)
  | .save p c => (.ok .saved, Function.update shelf p (some (.ok c)))
  | .loadOrCreate p =>
    match shelf p with
    | none => (.ok (.settings .standard), Function.update shelf p (some (.ok .standard)))
    | some (.ok c) => (.ok (.settings c), shelf)
    | some (.error fault) => (.error (.malformed p fault), shelf)

/-- The answer to a query, where `problem` is the error of a call that fails. -/
def answer (shelf : Shelf) (q : Query) (problem : Option SettingsError) : Except SettingsError Answer × Shelf :=
  if isName q.profile then
    match problem with
    | none => shelf.serve q
    | some e => (.error e, shelf)
  else (.error (.invalidProfile q.profile), shelf)

/-- The answers to one query after the other. -/
def answerAll : Shelf → List (Query × Option SettingsError) → List (Except SettingsError Answer) × Shelf
  | shelf, [] => ([], shelf)
  | shelf, (q, problem) :: qs =>
    let (a, shelf) := shelf.answer q problem
    let (as, shelf) := answerAll shelf qs
    (a :: as, shelf)

end Shelf

/-! ## Calls that fail -/

/-- The error, if it is one. -/
def error? {α : Type} : Except SettingsError α → Option SettingsError
  | .ok _ => none
  | .error e => some e

/-- The error of the call that fails when the query is answered in the state `s`, if one does. -/
def problem? (b : Backend S) (s : S) : Query → Option SettingsError
  | .load p => error? (b.read p s).1
  | .save p c => error? (b.write p c.encode s).1
  | .loadOrCreate p =>
    match b.read p s with
    | (.error e, _) => some e
    | (.ok document, s) => if (slot document).isNone then error? (b.write p Settings.standard.encode s).1 else none

/-- The queries, each with the error of the call that fails for it. -/
def withProblems (b : Backend S) : List Query → S → List (Query × Option SettingsError)
  | [], _ => []
  | q :: qs, s => (q, problem? b s q) :: withProblems b qs (serve b q s).2

/-! ## One query -/

section

variable {b : Backend S} {p : String} {s s' : S} {e : SettingsError} {document : Option Bytes}

theorem isName_eq_false_iff : isName p = false ↔
    p = "" ∨ ∃ c ∈ p.toList, ¬ (c.isAlphanum = true ∨ c = '-' ∨ c = '_') := by
  rw [← Bool.not_eq_true, isName, Bool.and_eq_true, Bool.not_eq_true', List.all_eq_true, not_and_or]
  simp [isNameChar, or_assoc]

/-- A query about a name that is not proper does not get to the backend. -/
theorem serve_of_not_isName (b : Backend S) (s : S) {q : Query} (hq : isName q.profile = false) :
    serve b q s = (.error (.invalidProfile q.profile), s) := by
  cases q <;> simp only [Query.profile] at hq <;>
    simp [serve, load, save, loadOrCreate, hq, Query.profile, Except.map]

theorem load_of_read_error (hp : isName p = true) (h : b.read p s = (.error e, s')) : load b p s = (.error e, s') := by
  simp [load, hp, h]

/-- The answer to `load` is read off the slot. -/
theorem load_of_read_ok (hp : isName p = true) (h : b.read p s = (.ok document, s')) : load b p s =
    (match slot document with
      | none => .ok none
      | some (.ok c) => .ok (some c)
      | some (.error fault) => .error (.malformed p fault), s') := by
  simp only [load, hp, h, Bool.not_true, Bool.false_eq_true, if_false]
  rcases document with _ | _ | ⟨byte, bytes⟩
  · rfl
  · rfl
  · simp only [slot]
    cases Settings.decode (byte :: bytes) <;> rfl

theorem loadOrCreate_of_read_error (hp : isName p = true) (h : b.read p s = (.error e, s')) :
    loadOrCreate b p s = (.error e, s') := by
  simp only [loadOrCreate, load_of_read_error hp h]

/-- Where there is a document, `loadOrCreate` only reads. -/
theorem loadOrCreate_of_slot {content : Except Json.Fault Settings} (hp : isName p = true)
    (h : b.read p s = (.ok document, s')) (hslot : slot document = some content) :
    loadOrCreate b p s = (content.mapError (.malformed p), s') := by
  simp only [loadOrCreate, load_of_read_ok hp h, hslot]
  cases content <;> rfl

/-- Where nothing is saved, `loadOrCreate` writes the standard settings. -/
theorem loadOrCreate_of_slot_none (hp : isName p = true) (h : b.read p s = (.ok document, s'))
    (hslot : slot document = none) : loadOrCreate b p s =
    ((b.write p Settings.standard.encode s').1.map fun _ => .standard,
      (b.write p Settings.standard.encode s').2) := by
  simp only [loadOrCreate, load_of_read_ok hp h, hslot, save, hp, Bool.not_true, Bool.false_eq_true, if_false]
  rcases b.write p Settings.standard.encode s' with ⟨_ | _, _⟩ <;> rfl

end

/-! ## The backend as a shelf -/

section

variable {b : Backend S} {kept : S → String → Option Bytes}

theorem slot_encode (c : Settings) : slot (some c.encode) = some (.ok c) := by
  rcases hc : c.encode with _ | ⟨byte, bytes⟩
  · exact absurd hc c.encode_ne_nil
  · rw [slot, ← hc, Settings.decode_encode]
    exact List.cons_ne_nil byte bytes

theorem shelf_update (documents : String → Option Bytes) (p : String) (c : Settings) :
    shelf (Function.update documents p (some c.encode)) = Function.update (shelf documents) p (some (.ok c)) := by
  funext name
  by_cases hname : name = p
  · subst hname
    simp only [shelf, Function.update_self, slot_encode]
  · simp only [shelf, Function.update_of_ne hname]

/-- What a call to write settings does to the shelf. -/
theorem shelf_write (hb : b.Keeps kept) (p : String) (c : Settings) (s : S) :
    shelf (kept (b.write p c.encode s).2) = match error? (b.write p c.encode s).1 with
      | none => Function.update (shelf (kept s)) p (some (.ok c))
      | some _ => shelf (kept s) := by
  rcases hw : b.write p c.encode s with ⟨_ | _, s'⟩
  · simp only [error?, hb.write_error hw]
  · simp only [error?, hb.write_ok hw, shelf_update]

theorem load_shelf (hb : b.Keeps kept) {p : String} (hp : isName p = true) (s : S) :
    ((serve b (.load p) s).1, shelf (kept (serve b (.load p) s).2)) =
      (shelf (kept s)).answer (.load p) (problem? b s (.load p)) := by
  rcases hr : b.read p s with ⟨e | document, s'⟩ <;>
    have hkept : kept s' = kept s := by simpa only [hr] using hb.kept_read p s
  · simp only [serve, load_of_read_error hp hr, problem?, hr, error?, hkept, Except.map, Shelf.answer, Query.profile,
      hp, if_true]
  · have hslot : slot document = shelf (kept s) p := congrArg slot (hb.read_ok hr)
    simp only [serve, load_of_read_ok hp hr, problem?, hr, error?, hkept, hslot, Shelf.answer, Query.profile, hp,
      if_true, Shelf.serve]
    rcases shelf (kept s) p with _ | _ | _ <;> rfl

theorem save_shelf (hb : b.Keeps kept) {p : String} (hp : isName p = true) (c : Settings) (s : S) :
    ((serve b (.save p c) s).1, shelf (kept (serve b (.save p c) s).2)) =
      (shelf (kept s)).answer (.save p c) (problem? b s (.save p c)) := by
  have hw := shelf_write hb p c s
  simp only [serve, save, hp, Bool.not_true, Bool.false_eq_true, if_false, problem?, hw, Shelf.answer, Query.profile,
    if_true, Shelf.serve]
  rcases (b.write p c.encode s).1 with _ | _ <;> rfl

theorem loadOrCreate_shelf (hb : b.Keeps kept) {p : String} (hp : isName p = true) (s : S) :
    ((serve b (.loadOrCreate p) s).1, shelf (kept (serve b (.loadOrCreate p) s).2)) =
      (shelf (kept s)).answer (.loadOrCreate p) (problem? b s (.loadOrCreate p)) := by
  simp only [Shelf.answer, Query.profile, hp, if_true]
  rcases hr : b.read p s with ⟨e | document, s'⟩ <;>
    have hkept : kept s' = kept s := by simpa only [hr] using hb.kept_read p s
  · simp only [serve, loadOrCreate_of_read_error hp hr, problem?, hr, hkept, Except.map]
  · have hdocument : slot document = shelf (kept s) p := congrArg slot (hb.read_ok hr)
    rcases hslot : shelf (kept s) p with _ | content <;> rw [hslot] at hdocument
    · have hw := shelf_write hb p .standard s'
      simp only [serve, loadOrCreate_of_slot_none hp hr hdocument, problem?, hr, hdocument, Option.isNone_none,
        if_true, hw, hkept, Shelf.serve, hslot]
      rcases (b.write p Settings.standard.encode s').1 with _ | _ <;> rfl
    · simp only [serve, loadOrCreate_of_slot hp hr hdocument, problem?, hr, hdocument, Option.isNone_some,
        Bool.false_eq_true, if_false, hkept, Shelf.serve, hslot]
      cases content <;> rfl

/-- **One query is answered from the shelf** and leaves on it what it should. -/
theorem serve_shelf (hb : b.Keeps kept) (q : Query) (s : S) :
    ((serve b q s).1, shelf (kept (serve b q s).2)) = (shelf (kept s)).answer q (problem? b s q) := by
  by_cases hq : isName q.profile = true
  · cases q with
    | load p => exact load_shelf hb hq s
    | save p c => exact save_shelf hb hq c s
    | loadOrCreate p => exact loadOrCreate_shelf hb hq s
  · rw [serve_of_not_isName b s (eq_false_of_ne_true hq)]
    simp only [Shelf.answer, if_neg hq]

theorem serve_fst (hb : b.Keeps kept) (q : Query) (s : S) :
    (serve b q s).1 = ((shelf (kept s)).answer q (problem? b s q)).1 := congrArg Prod.fst (serve_shelf hb q s)

theorem serve_snd (hb : b.Keeps kept) (q : Query) (s : S) :
    shelf (kept (serve b q s).2) = ((shelf (kept s)).answer q (problem? b s q)).2 :=
  congrArg Prod.snd (serve_shelf hb q s)

theorem serveAll_shelf (hb : b.Keeps kept) : ∀ (qs : List Query) (s : S),
    ((serveAll b qs s).1, shelf (kept (serveAll b qs s).2)) = (shelf (kept s)).answerAll (withProblems b qs s)
  | [], _ => rfl
  | q :: qs, s => by
    have hone := serve_shelf hb q s
    have hrest := serveAll_shelf hb qs (serve b q s).2
    simp only [serveAll, withProblems, Shelf.answerAll, ← hone, ← hrest]

theorem withProblems_of_neverFails (hb : b.NeverFails) : ∀ (qs : List Query) (s : S),
    withProblems b qs s = qs.map fun q => (q, none)
  | [], _ => rfl
  | q :: qs, s => by
    have hnone : ∀ {α : Type} {r : Except SettingsError α}, r.isOk = true → error? r = none := by
      rintro α (_ | _) h
      · cases h
      · rfl
    have hq : problem? b s q = none := by
      cases q with
      | load p => exact hnone (hb p [] s).1
      | save p c => exact hnone (hb p _ s).2
      | loadOrCreate p =>
        have hr := (hb p [] s).1
        rcases hread : b.read p s with ⟨_ | document, s'⟩ <;> rw [hread] at hr
        · cases hr
        · simp only [problem?, hread]
          split
          · exact hnone (hb p _ s').2
          · rfl
    simp only [withProblems, hq, List.map_cons, withProblems_of_neverFails hb qs]

/-! ## Other names, and settings that are not replaced -/

theorem kept_write (hb : b.Keeps kept) {p name : String} (hne : name ≠ p) (document : Bytes) (s : S) :
    kept (b.write p document s).2 name = kept s name := by
  rcases hw : b.write p document s with ⟨_ | _, s'⟩
  · rw [hb.write_error hw]
  · rw [hb.write_ok hw, Function.update_of_ne hne]

/-- A query leaves alone what is kept under other names. -/
theorem kept_serve (hb : b.Keeps kept) {q : Query} {name : String} (hne : name ≠ q.profile) (s : S) :
    kept (serve b q s).2 name = kept s name := by
  by_cases hq : isName q.profile = true
  case neg => rw [serve_of_not_isName b s (eq_false_of_ne_true hq)]
  cases q with
  | load p =>
    have hp : isName p = true := hq
    rcases hr : b.read p s with ⟨e | document, s'⟩ <;>
      have hkept : kept s' = kept s := by simpa only [hr] using hb.kept_read p s
    · simp only [serve, load_of_read_error hp hr, hkept]
    · simp only [serve, load_of_read_ok hp hr, hkept]
  | save p c =>
    have hp : isName p = true := hq
    simp only [serve, save, hp, Bool.not_true, Bool.false_eq_true, if_false]
    exact kept_write hb hne _ s
  | loadOrCreate p =>
    have hp : isName p = true := hq
    rcases hr : b.read p s with ⟨e | document, s'⟩ <;>
      have hkept : kept s' = kept s := by simpa only [hr] using hb.kept_read p s
    · simp only [serve, loadOrCreate_of_read_error hp hr, hkept]
    · rcases hslot : slot document with _ | content
      · have hwrite := kept_write hb hne Settings.standard.encode s'
        simp only [serve, loadOrCreate_of_slot_none hp hr hslot]
        exact hwrite.trans (congrFun hkept name)
      · simp only [serve, loadOrCreate_of_slot hp hr hslot, hkept]

theorem kept_serveAll (hb : b.Keeps kept) {name : String} : ∀ (qs : List Query) (s : S),
    (∀ q ∈ qs, name ≠ q.profile) → kept (serveAll b qs s).2 name = kept s name
  | [], _, _ => rfl
  | q :: qs, s, hqs => by
    simp only [serveAll]
    rw [kept_serveAll hb qs _ fun q' hq' => hqs q' (List.mem_cons_of_mem q hq'), kept_serve hb (hqs q (by simp))]

/-- Settings stay on the shelf until others are saved in their place. -/
theorem Shelf.answer_of_settings {shelf : Shelf} {p : String} {c : Settings} (hp : shelf p = some (.ok c)) {q : Query}
    (hq : ∀ c', q ≠ .save p c') (problem : Option SettingsError) : (shelf.answer q problem).2 p = some (.ok c) := by
  unfold Shelf.answer
  split
  · cases problem with
    | some e => exact hp
    | none =>
      cases q with
      | load p' =>
        simp only [Shelf.serve]
        split <;> exact hp
      | save p' c' =>
        have hne : p ≠ p' := fun he => hq c' (he ▸ rfl)
        simp only [Shelf.serve, Function.update_of_ne hne, hp]
      | loadOrCreate p' =>
        simp only [Shelf.serve]
        split
        · rename_i hnone
          have hne : p ≠ p' := fun he => by cases hp.symm.trans (he ▸ hnone)
          simp only [Function.update_of_ne hne, hp]
        · exact hp
        · exact hp
  · exact hp

theorem shelf_serveAll_of_settings (hb : b.Keeps kept) {p : String} {c : Settings} : ∀ (qs : List Query) (s : S),
    (∀ c', .save p c' ∉ qs) → shelf (kept s) p = some (.ok c) → shelf (kept (serveAll b qs s).2) p = some (.ok c)
  | [], _, _, hs => hs
  | q :: qs, s, hqs, hs => by
    have hone : shelf (kept (serve b q s).2) p = some (.ok c) := by
      rw [serve_snd hb]
      exact Shelf.answer_of_settings hs (fun c' he => hqs c' (he ▸ List.mem_cons_self)) _
    exact shelf_serveAll_of_settings hb qs _ (fun c' hc' => hqs c' (List.mem_cons_of_mem q hc')) hone

theorem shelf_of_saved (hb : b.Keeps kept) {p : String} {c : Settings} {s : S}
    (h : (serve b (.save p c) s).1 = .ok .saved) :
    isName p = true ∧ shelf (kept (serve b (.save p c) s).2) p = some (.ok c) := by
  rw [serve_fst hb] at h
  rw [serve_snd hb]
  unfold Shelf.answer at h ⊢
  split at h
  · rename_i hp
    rw [if_pos hp]
    split at h
    · exact ⟨hp, Function.update_self p _ _⟩
    · cases h
  · cases h

/-- A call to read that fails, or a document that is none, is an error of the query, which then only reads. -/
theorem serve_of_unreadable (hb : b.Keeps kept) {p : String} (hp : isName p = true) {s : S} {e : SettingsError}
    (h : (b.read p s).1 = .error e ∨ (b.read p s).1.isOk = true ∧
      ∃ fault, slot (kept s p) = some (.error fault) ∧ e = .malformed p fault) :
    serve b (.load p) s = (.error e, (b.read p s).2) ∧ serve b (.loadOrCreate p) s = (.error e, (b.read p s).2) := by
  rcases hr : b.read p s with ⟨e' | document, s'⟩ <;> rw [hr] at h
  · rcases h with h | ⟨h, -⟩
    · cases h
      simp only [serve, load_of_read_error hp hr, loadOrCreate_of_read_error hp hr]
      exact ⟨rfl, rfl⟩
    · cases h
  · rcases h with h | ⟨-, fault, hslot, rfl⟩
    · cases h
    · rw [← hb.read_ok hr] at hslot
      simp only [serve, load_of_read_ok hp hr, loadOrCreate_of_slot hp hr hslot, hslot]
      exact ⟨rfl, rfl⟩

/-- Where there is a document, `loadOrCreate` only reads. -/
theorem serve_loadOrCreate_of_saved (hb : b.Keeps kept) {p : String} (hp : isName p = true) {s : S}
    (h : slot (kept s p) ≠ none) : (serve b (.loadOrCreate p) s).2 = (b.read p s).2 := by
  rcases hr : b.read p s with ⟨e | document, s'⟩
  · simp only [serve, loadOrCreate_of_read_error hp hr]
  · rw [← hb.read_ok hr] at h
    obtain ⟨content, hslot⟩ := Option.ne_none_iff_exists'.1 h
    simp only [serve, loadOrCreate_of_slot hp hr hslot]

/-- **Profiles are a map from names to settings**, on every backend that keeps what is written to it.

The answers to any queries, and the shelf they leave, are those of the shelf found at the start, where a call that
fails makes its query fail and changes nothing; if no call ever fails, no query is disturbed. Settings that were
saved are found exactly, until others are saved in their place. What is kept under other names stays as it is. The
standard settings are written only where nothing is saved. With a name that is empty, or has a character that is no
ASCII letter or digit, hyphen or underscore, the backend is not even asked; and a document that cannot be read, or one
that is none, is an error after which nothing has been written. -/
theorem profiles_are_a_map (hb : b.Keeps kept) :
    (∀ qs s, ((serveAll b qs s).1, shelf (kept (serveAll b qs s).2)) =
      (shelf (kept s)).answerAll (withProblems b qs s)) ∧
    (b.NeverFails → ∀ qs s, withProblems b qs s = qs.map fun q => (q, none)) ∧
    (∀ p c s qs, (serve b (.save p c) s).1 = .ok .saved → (∀ c', .save p c' ∉ qs) →
      let later := (serveAll b qs (serve b (.save p c) s).2).2
      (problem? b later (.load p) = none → (serve b (.load p) later).1 = .ok (.found (some c))) ∧
      (problem? b later (.loadOrCreate p) = none → (serve b (.loadOrCreate p) later).1 = .ok (.settings c))) ∧
    (∀ qs s name, (∀ q ∈ qs, name ≠ q.profile) → kept (serveAll b qs s).2 name = kept s name) ∧
    (∀ p s, isName p = true → slot (kept s p) ≠ none → (serve b (.loadOrCreate p) s).2 = (b.read p s).2) ∧
    (∀ q s, (q.profile = "" ∨ ∃ c ∈ q.profile.toList, ¬ (c.isAlphanum = true ∨ c = '-' ∨ c = '_')) →
      serve b q s = (.error (.invalidProfile q.profile), s)) ∧
    ∀ p s e, isName p = true →
      ((b.read p s).1 = .error e ∨ (b.read p s).1.isOk = true ∧
        ∃ fault, slot (kept s p) = some (.error fault) ∧ e = .malformed p fault) →
      ∀ q ∈ [Query.load p, .loadOrCreate p],
        serve b q s = (.error e, (b.read p s).2) ∧ kept (serve b q s).2 = kept s := by
  refine ⟨serveAll_shelf hb, withProblems_of_neverFails, ?_, fun qs s name => kept_serveAll hb qs s,
    fun p s hp => serve_loadOrCreate_of_saved hb hp,
    fun q s hq => serve_of_not_isName b s (isName_eq_false_iff.2 hq), ?_⟩
  · intro p c s qs hsaved hqs later
    obtain ⟨hp, hshelf⟩ := shelf_of_saved hb hsaved
    have hlater : shelf (kept later) p = some (.ok c) := shelf_serveAll_of_settings hb qs _ hqs hshelf
    constructor <;> intro hnone
    · rw [serve_fst hb, hnone]
      simp only [Shelf.answer, Query.profile, hp, if_true, Shelf.serve, hlater]
    · rw [serve_fst hb, hnone]
      simp only [Shelf.answer, Query.profile, hp, if_true, Shelf.serve, hlater]
  · intro p s e hp h q hq
    obtain ⟨hload, hcreate⟩ := serve_of_unreadable hb hp h
    have hserve : serve b q s = (.error e, (b.read p s).2) := by
      simp only [List.mem_cons, List.not_mem_nil, or_false] at hq
      rcases hq with rfl | rfl
      · exact hload
      · exact hcreate
    exact ⟨hserve, by rw [hserve]; exact hb.kept_read p s⟩

theorem profiles_are_a_map_in_memory :
    let store : MemoryStore := ⟨[("new", []), ("broken", [0x78])], none, none, []⟩
    let queries : List Query :=
      [.loadOrCreate "new", .save "a" ⟨some "x\"", true⟩, .load "a", .load "broken", .load "a/b"]
    MemoryStore.backend.Keeps MemoryStore.get? ∧
    (serveAll MemoryStore.backend queries store).1 = [.ok (.settings .standard), .ok .saved,
      .ok (.found (some ⟨some "x\"", true⟩)), .error (.malformed "broken" .malformed),
      .error (.invalidProfile "a/b")] := by
  intro store queries
  refine ⟨MemoryStore.keeps_backend, ?_⟩
  have h := (profiles_are_a_map MemoryStore.keeps_backend).1 queries store
  exact (congrArg Prod.fst h).trans rfl

end
end Profiles

end StreamMerge
