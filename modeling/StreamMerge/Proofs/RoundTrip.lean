import StreamMerge.Proofs.Tolerance

/-!
# Documents come back

What is written as a document is read again exactly as it was: it is one of the documents that are read field by field,
and under each name stands the form of the field.

Conversely, `Keep` says what holds of every record that is read, however the document came to be.
-/
namespace StreamMerge

namespace Json

/-! ## The forms of values are values -/

section

variable {ws rest : Bytes}

theorem inside_plain : ∀ {ws : Bytes}, (∀ b ∈ ws, IsPlain b) → Inside rest → Inside (ws ++ rest)
  | [], _, h => h
  | b :: ws, hws, h => by
    obtain ⟨hb, hws⟩ := List.forall_mem_cons.1 hws
    exact .plain b hb (inside_plain hws h)

theorem Spells.inside {c : Char} (hc : Spells c ws) (h : Inside rest) : Inside (ws ++ rest) := by
  cases hc with
  | plain hge hquote hslash => exact inside_plain (fun b hb => isPlain_of_mem hge hquote hslash hb) h
  | short b hmem => exact .short b c hmem h
  | number ds hds => exact .number ds _ hds h
  | halves high low hs ls _ _ _ hhs hls =>
    have hinside : Inside (0x5c :: 0x75 :: (hs ++ 0x5c :: 0x75 :: (ls ++ rest))) :=
      .number hs _ hhs (.number ls _ hls h)
    simpa only [List.cons_append, List.append_assoc] using hinside

theorem SpellsAll.inside {cs : List Char} (h : SpellsAll cs ws) : Inside ws := by
  induction h with
  | nil => exact .nil
  | cons hc _ ih => exact hc.inside ih

theorem IsString.derives {s : String} (h : IsString s ws) : Derives .value ws := by
  cases h with
  | intro h => exact .string h.inside

theorem IsOptionalString.derives {s : Option String} (h : IsOptionalString s ws) : Derives .value ws := by
  cases h with
  | null => exact .null
  | some h => exact h.derives

theorem IsBool.derives {b : Bool} (h : IsBool b ws) : Derives .value ws := by
  cases h with
  | true => exact .true
  | false => exact .false

theorem IsNatural.derives {n : Nat} (h : IsNatural n ws) : Derives .value ws := by
  have hnumeral := Numeral.intro [] List.mem_cons_self h.1 .none .none
  simp only [List.nil_append, List.append_nil] at hnumeral
  exact .number hnumeral

end

/-! ## Documents -/

/-- The start of a line. -/
def Gap.indent : Gap := ⟨[0x0a, 0x20, 0x20], by decide⟩

/-- A member that is written on a line of its own. -/
structure Line where
  name : String
  value : Bytes
  isValue : Derives .value value

namespace Line

def written (l : Line) : Written := .of .indent .space l.name l.value l.isValue

/-- The line, without the line break before it. -/
def text (l : Line) : Bytes := [0x20, 0x20] ++ quote l.name ++ [0x3a, 0x20] ++ l.value

theorem onto_written (l : Line) (rest : Bytes) : l.written.onto rest = 0x0a :: (l.text ++ rest) := by
  simp [Written.onto, Written.tail, written, Written.of, Gap.indent, Gap.none, Gap.space, text, quote]

end Line

/-- The document of these lines. -/
def Document.ofLines (ls : List Line) : Document where
  members := ls.map Line.written
  before := .none
  atEnd := .newline
  after := .none

theorem intercalate_lines : ∀ (ls : List Line) (l : Line),
    ([0x2c, 0x0a] : Bytes).intercalate ((l :: ls).map Line.text) ++ [0x0a, 0x7d] =
      l.text ++ later .newline [] (ls.map Line.written)
  | [], l => by simp [later, Gap.newline]
  | l' :: ls, l => by
    have ih := intercalate_lines ls l'
    rw [List.map_cons] at ih
    rw [List.map_cons, List.map_cons, List.intercalate_cons_cons, List.append_assoc, List.append_assoc, ih,
      List.map_cons, later, l'.onto_written]
    rfl

/-- What is laid out is a document. -/
theorem layout_eq_text (ls : List Line) (hne : ls ≠ []) :
    layout (ls.map fun l => (l.name, l.value)) = (Document.ofLines ls).text := by
  have hlayout : layout (ls.map fun l => (l.name, l.value)) =
      [0x7b, 0x0a] ++ (([0x2c, 0x0a] : Bytes).intercalate (ls.map Line.text) ++ [0x0a, 0x7d]) := by
    unfold layout
    extract_lets line
    rw [List.map_map, List.append_assoc]
    rfl
  obtain ⟨l, ls, rfl⟩ := List.exists_cons_of_ne_nil hne
  have htext : (Document.ofLines (l :: ls)).text =
      0x7b :: l.written.onto (later .newline [] (ls.map Line.written)) := rfl
  rw [hlayout, intercalate_lines, htext, l.onto_written]
  rfl

section

variable {R : Type} {members : List (Member R)}

/-- Every member keeps `P`. -/
def Keep (members : List (Member R)) (P : R → Prop) : Prop :=
  ∀ member ∈ members, ∀ r bs r' rest, P r → member.read r bs = .ok (r', rest) → P r'

section

variable {P : R → Prop} {r r' : R} {bs rest : Bytes}

theorem Keep.readMember (hk : Keep members P) {seen seen' : List String} (hr : P r)
    (h : readMember members seen r bs = .ok ((seen', r'), rest)) : P r' := by
  unfold Json.readMember at h
  split at h
  · cases h
  · split at h
    · split at h
      · cases h
      · split at h <;> cases h
        exact hr
    · rename_i member hm
      split at h
      · cases h
      · split at h
        · cases h
        · split at h <;> cases h
          rename_i hread
          exact hk member (List.mem_of_find?_eq_some hm) _ _ _ _ hr hread

theorem Keep.readMembers (hk : Keep members P) : ∀ (fuel : Nat) {seen : List String} {r : R} {bs : Bytes}, P r →
    readMembers members fuel seen r bs = .ok (r', rest) → P r'
  | 0, _, _, _, _, h => by cases h
  | fuel + 1, seen, r, bs, hr, h => by
    unfold Json.readMembers at h
    split at h
    · cases h
    · cases h
      exact hr
    · split at h
      · cases h
      · split at h
        · rename_i hm
          exact Keep.readMembers hk fuel (hk.readMember hr hm) h
        · cases h
      · cases h
    · cases h

theorem Keep.readObject (hk : Keep members P) (hr : P r) (h : readObject members r bs = .ok (r', rest)) : P r' := by
  unfold Json.readObject at h
  split at h
  · cases h
  · cases h
    exact hr
  · split at h
    · rename_i hm
      exact hk.readMembers _ (hk.readMember hr hm) h
    · cases h
  · cases h

theorem Keep.readItems : ∀ {members : List (Member R)} {r : R} {bs : Bytes}, Keep members P → P r →
    readItems members r bs = .ok (r', rest) → P r'
  | members, r, bs, hk, hr, h => by
    unfold Json.readItems at h
    split at h
    · cases h
    · cases h
      exact hr
    · cases members with
      | nil => cases h
      | cons member members =>
        dsimp only at h
        split at h
        · cases h
        · cases h
        · split at h
          · rename_i hread
            exact Keep.readItems (fun member' hm => hk member' (List.mem_cons_of_mem member hm))
              (hk member (by simp) _ _ _ _ hr hread) h
          · cases h
    · cases h

theorem Keep.readArray (hk : Keep members P) (hr : P r) (h : readArray members r bs = .ok (r', rest)) : P r' := by
  unfold Json.readArray at h
  cases members with
  | nil => split at h <;> grind
  | cons member members =>
    split at h
    · cases h
    · cases h
      exact hr
    · cases h
    · rename_i heq _ _
      cases heq
      split at h
      · rename_i hread
        exact Keep.readItems (fun member' hm => hk member' (List.mem_cons_of_mem member hm))
          (hk member (by simp) _ _ _ _ hr hread) h
      · cases h

/-- **What every member keeps is true of whatever is read**, if it is true of the standard record. -/
theorem Keep.decode (hk : Keep members P) {standard : R} (hs : P standard) (h : decode members standard bs = .ok r) :
    P r := by
  unfold Json.decode at h
  split at h
  · cases h
  · rename_i r' rest hread
    split at h <;> cases h
    unfold readRecord at hread
    split at hread
    · exact hk.readArray hs hread
    · exact hk.readObject hs hread
    · cases hread

end

end

/-- No document is empty. -/
theorem layout_ne_nil (fields : List (String × Bytes)) : layout fields ≠ [] := by
  unfold layout
  exact List.cons_ne_nil _ _

end Json

/-! ## Settings and preferences -/

open Json

/-- The lines of a settings document. -/
def Settings.lines (s : Settings) : List Line := [
  ⟨"name", writeOptionalString s.name, (isOptionalString_write s.name).derives⟩,
  ⟨"trace_transitions", writeBool s.tracing, (isBool_write s.tracing).derives⟩]

/-- **Settings come back as they were saved.** -/
theorem Settings.decode_encode (s : Settings) : Settings.decode s.encode = .ok s := by
  have htext : s.encode = (Document.ofLines s.lines).text := layout_eq_text s.lines (List.cons_ne_nil _ _)
  have hname : values "name" (Document.ofLines s.lines).members = [writeOptionalString s.name] := by
    simp [Settings.lines, Document.ofLines, Line.written, Written.of, values]
  have htracing : values "trace_transitions" (Document.ofLines s.lines).members = [writeBool s.tracing] := by
    simp [Settings.lines, Document.ofLines, Line.written, Written.of, values]
  have hstands : Stands (Document.ofLines s.lines) (some s.name) (some s.tracing) :=
    ⟨hname ▸ .present (isOptionalString_write s.name), htracing ▸ .present (isBool_write s.tracing)⟩
  rw [htext]
  exact Settings.decode_text hstands

theorem Settings.encode_ne_nil (s : Settings) : s.encode ≠ [] := Json.layout_ne_nil _

/-- The lines of a preferences document. -/
def Preferences.lines (p : Preferences) (h : p.batch ≤ largest64) : List Line := [
  ⟨"batch", writeNatural p.batch, (isNatural_write h).derives⟩,
  ⟨"log_filter", quote p.logFilter, (isString_quote p.logFilter).derives⟩,
  ⟨"profile", quote p.profile, (isString_quote p.profile).derives⟩]

/-- **Preferences come back as they were saved**, if the size of a batch fits 64 bits. -/
theorem Preferences.decode_encode (p : Preferences) (h : p.batch ≤ Json.largest64) :
    Preferences.decode p.encode = .ok p := by
  have htext : p.encode = (Document.ofLines (p.lines h)).text := layout_eq_text (p.lines h) (List.cons_ne_nil _ _)
  have hbatch : values "batch" (Document.ofLines (p.lines h)).members = [writeNatural p.batch] := by
    simp [Preferences.lines, Document.ofLines, Line.written, Written.of, values]
  have hlogFilter : values "log_filter" (Document.ofLines (p.lines h)).members = [quote p.logFilter] := by
    simp [Preferences.lines, Document.ofLines, Line.written, Written.of, values]
  have hprofile : values "profile" (Document.ofLines (p.lines h)).members = [quote p.profile] := by
    simp [Preferences.lines, Document.ofLines, Line.written, Written.of, values]
  have hstands : Stands (Document.ofLines (p.lines h)) (some p.batch) (some p.logFilter) (some p.profile) :=
    ⟨hbatch ▸ .present (isNatural_write h), hlogFilter ▸ .present (isString_quote p.logFilter),
      hprofile ▸ .present (isString_quote p.profile)⟩
  rw [htext]
  exact Preferences.decode_text hstands

/-- In whatever document preferences are found, the size of a batch fits 64 bits. -/
theorem Preferences.batch_le_of_decode {bs : Bytes} {p : Preferences} (h : Preferences.decode bs = .ok p) :
    p.batch ≤ Json.largest64 := by
  have hkeep : Json.Keep Preferences.members fun p => p.batch ≤ Json.largest64 := by
    intro member hm r bs r' rest hr hread
    simp only [Preferences.members, List.mem_cons, List.not_mem_nil, or_false] at hm
    rcases hm with rfl | rfl | rfl <;> simp only [Json.Member.of] at hread <;> split at hread <;> cases hread
    · rename_i hbatch
      exact Json.le_of_readNatural hbatch
    · exact hr
    · exact hr
  exact hkeep.decode (by decide) h

end StreamMerge
