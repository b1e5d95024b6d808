import Mathlib.Data.List.Basic
import StreamMerge.SettingsDirectory

/-!
# What is found in a file tree

A tree is what is found at its paths: to put an entry somewhere changes what is found at that path, and at no other
path that does not lead through it. What the program does with its settings directory depends on nothing else.
-/
namespace StreamMerge

section

variable {κ ν : Type} [BEq κ] [LawfulBEq κ] [DecidableEq κ] {k k' : κ}

theorem lookup_filter_ne (hne : k' ≠ k) : ∀ l : List (κ × ν), (l.filter (·.1 ≠ k)).lookup k' = l.lookup k'
  | [] => rfl
  | (k₁, v₁) :: l => by
    have ih := lookup_filter_ne hne l
    by_cases hk : k₁ = k
    · have hbeq : (k' == k₁) = false := beq_eq_false_iff_ne.2 (hk ▸ hne)
      simp only [List.filter_cons, ne_eq, hk, not_true, decide_false, Bool.false_eq_true, if_false, ih]
      rw [List.lookup_cons, ← hk, hbeq]
    · simp only [List.filter_cons, ne_eq, hk, not_false_eq_true, decide_true, if_true, List.lookup_cons, ih]

/-- A pair that takes the place of those with its key is found under this key, and under all others what was found
before. -/
theorem lookup_replace (k k' : κ) (v : ν) (l : List (κ × ν)) :
    ((k, v) :: l.filter (·.1 ≠ k)).lookup k' = if k' = k then some v else l.lookup k' := by
  by_cases hk : k' = k
  · simp [hk]
  · have hbeq : (k' == k) = false := beq_eq_false_iff_ne.2 hk
    rw [List.lookup_cons, hbeq, if_neg hk]
    exact lookup_filter_ne hk l

end

namespace FileTree

variable {t t' : FileTree}

/-- At every path there is the same in both trees. -/
def Same (t t' : FileTree) : Prop := ∀ p, t.entry? p = t'.entry? p

theorem Same.refl (t : FileTree) : t.Same t := fun _ => rfl

theorem entry?_put (t : FileTree) {p : Path} (hp : p ≠ []) (e : FileEntry) (q : Path) :
    entry? (t.put p e) q = if q = p then some e else t.entry? q := by
  cases q with
  | nil => rw [if_neg hp.symm]; rfl
  | cons name q => exact lookup_replace p (name :: q) e t.entries

/-- To put the entry that is there changes nothing. -/
theorem same_put {p : Path} {e : FileEntry} (hp : p ≠ []) (h : t.entry? p = some e) : (t.put p e).Same t := by
  intro q
  rw [entry?_put t hp]
  split
  · rename_i hq
    rw [hq, h]
  · rfl

theorem Same.put (h : t.Same t') {p : Path} (hp : p ≠ []) (e : FileEntry) : (t.put p e).Same (t'.put p e) := by
  intro q
  rw [entry?_put t hp, entry?_put t' hp, h q]

theorem Same.follow (h : t.Same t') (above : Path) (rest : List String) :
    t.follow above rest = t'.follow above rest := by
  induction rest generalizing above with
  | nil => simp only [FileTree.follow, h above]
  | cons name rest ih => simp only [FileTree.follow, h above, ih]

theorem Same.read (h : t.Same t') (p : Path) : t.read p = t'.read p := by
  simp only [FileTree.read, h.follow]

/-- A path that leads to the entry that was put finds it, if it leads there at all. -/
theorem follow_put_self {p : Path} (hp : p ≠ []) (e : FileEntry) :
    ∀ (rest above : List String), above ++ rest = p →
    (t.put p e).follow above rest = (t.follow above rest).map fun _ => some e
  | [], above, h => by
    rw [List.append_nil] at h
    simp only [FileTree.follow, entry?_put t hp, if_pos h, Except.map]
  | name :: rest, above, h => by
    have hne : above ≠ p := fun he => by
      rw [he] at h
      exact absurd (List.append_right_eq_self.1 h) (List.cons_ne_nil name rest)
    have ih := follow_put_self hp e rest (above ++ [name]) (by rw [List.append_assoc]; exact h)
    simp only [FileTree.follow, entry?_put t hp, if_neg hne, ih]
    rcases t.entry? above with _ | (_ | _)
    · rfl
    · rfl
    · dsimp only
      split <;> rfl

/-- A path that does not lead through the entry that was put finds what it found before. -/
theorem follow_put_of_not_prefix {p : Path} (hp : p ≠ []) (e : FileEntry) : ∀ (rest above : List String),
    ¬ p <+: above ++ rest → (t.put p e).follow above rest = t.follow above rest
  | [], above, h => by
    have hne : above ≠ p := fun he => h (he ▸ List.prefix_append above [])
    simp only [FileTree.follow, entry?_put t hp, if_neg hne]
  | name :: rest, above, h => by
    have hne : above ≠ p := fun he => h (he ▸ List.prefix_append above (name :: rest))
    have ih := follow_put_of_not_prefix hp e rest (above ++ [name]) (by rw [List.append_assoc]; exact h)
    simp only [FileTree.follow, entry?_put t hp, if_neg hne, ih]

end FileTree

namespace SettingsDirectory

open FileTree

variable {t t' : FileTree} {p q : Path} {contents : Bytes}

theorem readIfPresent_of_same (h : t.Same t') (p : Path) : readIfPresent t p = readIfPresent t' p := by
  simp only [readIfPresent, h.read]

/-- What to write a file does: it fails and changes nothing, or the file is put where it belongs. -/
theorem writeFile_cases (t : FileTree) (p : Path) (contents : Bytes) :
    (∃ e, writeFile t p contents = (.error e, t)) ∨
      writeFile t p contents = (.ok (), t.put p (.file contents)) ∧ ∃ entry, t.follow [] p = .ok entry := by
  rcases hfollow : t.follow [] p with problem | (_ | (_ | _)) <;> simp [writeFile, FileTree.write, hfollow]

theorem writeFile_of_same (h : t.Same t') (hp : p ≠ []) (contents : Bytes) :
    (writeFile t p contents).1 = (writeFile t' p contents).1 ∧
      (writeFile t p contents).2.Same (writeFile t' p contents).2 := by
  simp only [writeFile, FileTree.write, h.follow]
  rcases t'.follow [] p with _ | (_ | _ | _)
  · exact ⟨rfl, h⟩
  · exact ⟨rfl, h.put hp _⟩
  · exact ⟨rfl, h.put hp _⟩
  · exact ⟨rfl, h⟩

theorem readIfPresent_put_self (hp : p ≠ []) {entry : Option FileEntry} (h : t.follow [] p = .ok entry) :
    readIfPresent (t.put p (.file contents)) p = .ok (some contents) := by
  have hfollow := follow_put_self (t := t) hp (.file contents) p [] rfl
  rw [h] at hfollow
  simp only [readIfPresent, FileTree.read, hfollow, Except.map]

theorem readIfPresent_put_of_not_prefix (hp : p ≠ []) (e : FileEntry) (h : ¬ p <+: q) :
    readIfPresent (t.put p e) q = readIfPresent t q := by
  have hfollow := follow_put_of_not_prefix (t := t) hp e q [] h
  simp only [readIfPresent, FileTree.read, hfollow]

/-! ## The paths of the program -/

theorem profilePath_ne_nil (name : String) : profilePath name ≠ [] := List.cons_ne_nil _ _

theorem profilePath_inj {name name' : String} (h : profilePath name = profilePath name') : name = name' := by
  have hfile : name ++ ".json" = name' ++ ".json" := (List.cons.inj (List.cons.inj h).2).1
  exact (String.append_left_inj _).1 hfile

theorem not_prefix_profilePath {name name' : String} (h : name ≠ name') : ¬ profilePath name <+: profilePath name' :=
  fun hbegins => h (profilePath_inj (hbegins.eq_of_length rfl))

theorem prepare_eq (t : FileTree) : prepare t = match t.entry? profilesPath with
    | none => (.ok (), t.put profilesPath .directory)
    | some .directory => (.ok (), t)
    | some (.file _) => (.error (ofProblem .alreadyExists), t) := by
  have hfollow : t.follow [] ([] ++ ["profiles"]) = .ok (t.entry? profilesPath) := rfl
  simp only [prepare, profilesPath, makeDirectories] at hfollow ⊢
  rw [hfollow]
  rcases t.entry? ["profiles"] with _ | (_ | _) <;> rfl

/-- A prepared directory has a directory of profiles. -/
theorem entry?_of_prepare (h : prepare t = (.ok (), t')) : t'.entry? profilesPath = some .directory := by
  rw [prepare_eq] at h
  rcases hentry : t.entry? profilesPath with _ | (_ | _) <;> rw [hentry] at h <;> cases h
  · exact (entry?_put t (List.cons_ne_nil _ _) .directory profilesPath).trans (if_pos rfl)
  · exact hentry

end SettingsDirectory
end StreamMerge
