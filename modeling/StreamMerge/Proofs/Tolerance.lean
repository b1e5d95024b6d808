import Mathlib.Data.List.Nodup
import StreamMerge.Proofs.Skipping
import StreamMerge.SettingsDirectory

/-!
# Documents are read tolerantly

However a document is written, what is read of it depends on nothing but the values of the known members: their order,
the blanks around them and the other members make no difference, whatever values these have. A document is given by its
members as they are written (`Document`); the reader's loop is followed from one member to the next
(`readMembers_later`), so that the record in the end is a fold over the members, and the fold is then taken field by
field (`get_foldl`).
-/
namespace StreamMerge

namespace Json

/-! ## Documents as they are written -/

/-- Blanks. -/
abbrev Gap := { bs : Bytes // Blanks bs }

def Gap.none : Gap := ⟨[], blanks_nil⟩

def Gap.newline : Gap := ⟨[0x0a], by decide⟩

def Gap.space : Gap := ⟨[0x20], by decide⟩

/-- A member of an object as it is written. -/
structure Written where
  name : String
  /-- One of the ways to write the name. -/
  spelling : Bytes
  value : Bytes
  beforeName : Gap
  afterName : Gap
  beforeValue : Gap
  afterValue : Gap
  spelled : SpellsAll name.toList spelling
  isValue : Derives .value value

namespace Written

/-- A member with its name in the form in which names are written, and blanks only before the name and the value. -/
def of (beforeName beforeValue : Gap) (name : String) (value : Bytes) (isValue : Derives .value value) : Written where
  name
  spelling := name.toList.flatMap escape
  value
  beforeName
  afterName := .none
  beforeValue
  afterValue := .none
  spelled := spellsAll_escapes name.toList
  isValue

/-- What follows the opening quotation mark of the name, up to `rest`. -/
def tail (w : Written) (rest : Bytes) : Bytes :=
  w.spelling ++ 0x22 :: (w.afterName.1 ++ 0x3a :: (w.beforeValue.1 ++ (w.value ++ (w.afterValue.1 ++ rest))))

/-- The member, followed by `rest`. -/
def onto (w : Written) (rest : Bytes) : Bytes := w.beforeName.1 ++ 0x22 :: w.tail rest

theorem skipBlank_onto (w : Written) (rest : Bytes) : skipBlank (w.onto rest) = 0x22 :: w.tail rest := by
  rw [onto, skipBlank_append w.beforeName.2, skipBlank_cons rfl]

end Written

/-- An object with nothing but blanks around it. -/
structure Document where
  members : List Written
  before : Gap
  /-- The blanks before the closing brace. -/
  atEnd : Gap
  after : Gap

/-- What follows a member of an object: the further members, the closing brace and `rest`. -/
def later (atEnd : Gap) (rest : Bytes) : List Written → Bytes
  | [] => atEnd.1 ++ 0x7d :: rest
  | w :: ws => 0x2c :: w.onto (later atEnd rest ws)

/-- The whole text of a document. -/
def Document.text (d : Document) : Bytes :=
  d.before.1 ++ 0x7b :: match d.members with
    | [] => d.atEnd.1 ++ 0x7d :: d.after.1
    | w :: ws => w.onto (later d.atEnd d.after.1 ws)

theorem Document.text_ne_nil (d : Document) : d.text ≠ [] := by
  unfold Document.text
  exact List.append_ne_nil_of_right_ne_nil _ (List.cons_ne_nil _ _)

theorem endsValue_later (atEnd : Gap) (rest : Bytes) : ∀ ws : List Written, EndsValue (later atEnd rest ws)
  | [] => endsValue_blanks atEnd.2 (endsValue_cons (Or.inr (Or.inr rfl)) rest)
  | w :: ws => endsValue_cons (Or.inl rfl) (w.onto (later atEnd rest ws))

/-- A document has more bytes than members, so that reading it does not run out of fuel. -/
theorem length_le_later (atEnd : Gap) (rest : Bytes) : ∀ ws : List Written, ws.length ≤ (later atEnd rest ws).length
  | [] => Nat.zero_le _
  | w :: ws => by
    have ih := length_le_later atEnd rest ws
    simp only [later, Written.onto, Written.tail, List.length_append, List.length_cons]
    omega

/-! ## The reader's loop -/

section

variable {R : Type} {members : List (Member R)} {set : Written → R → R} {rest : Bytes}

/-- What a member makes of a record: nothing if it is unknown, otherwise what its value is found to be. -/
def Written.Sets (members : List (Member R)) (w : Written) (f : R → R) : Prop :=
  match members.find? (·.name = w.name) with
  | none => f = id
  | some member => ∀ r, Finds (member.read r) w.value (f r)

/-- No two members have the same known name. -/
def Alone (members : List (Member R)) (ws : List Written) : Prop :=
  ws.Pairwise fun w w' => w.name = w'.name → w.name ∉ members.map Member.name

/-- Two objects have the same known members, in whatever order and among whatever others. -/
def Alike (members : List (Member R)) (ws ws' : List Written) : Prop :=
  (ws.filter (·.name ∈ members.map Member.name)).Perm (ws'.filter (·.name ∈ members.map Member.name))

theorem eq_of_find? {β : Type*} {l : List β} {b : β} {f : β → String} {name : String}
    (h : l.find? (f · = name) = some b) : f b = name := by
  simpa using List.find?_some h

theorem readColon_gap {gap : Bytes} (h : Blanks gap) (bs : Bytes) : readColon (gap ++ 0x3a :: bs) = .ok bs := by
  unfold readColon
  rw [skipBlank_append h, skipBlank_cons rfl]
  rfl

/-- A member is read whose opening quotation mark has been read; at most its name is remembered. -/
theorem Written.Sets.readMember {w : Written} {f : R → R} (hf : w.Sets members f) {seen : List String}
    (hs : w.name ∈ members.map Member.name → w.name ∉ seen) (r : R) (hrest : EndsValue rest) :
    ∃ seen', seen' ⊆ w.name :: seen ∧
      readMember members seen r (w.tail rest) = .ok ((seen', f r), w.afterValue.1 ++ rest) := by
  have htext := readText_spelled w.spelled
    (w.afterName.1 ++ 0x3a :: (w.beforeValue.1 ++ (w.value ++ (w.afterValue.1 ++ rest))))
  have hcolon := readColon_gap w.afterName.2 (w.beforeValue.1 ++ (w.value ++ (w.afterValue.1 ++ rest)))
  have hends : EndsValue (w.afterValue.1 ++ rest) := endsValue_blanks w.afterValue.2 hrest
  unfold Written.Sets at hf
  unfold Json.readMember
  rw [tail, htext]
  cases hm : members.find? (·.name = w.name) with
  | none =>
    obtain rfl : f = id := by rwa [hm] at hf
    have hskip := skipValue_of_derives w.isValue w.beforeValue.2 hends
    exact ⟨seen, List.subset_cons_self w.name seen, by simp only [hm, hcolon, hskip, id_eq]⟩
  | some member =>
    rw [hm] at hf
    have hread := hf r w.beforeValue.1 _ w.beforeValue.2 hends
    have hname : member.name = w.name := eq_of_find? hm
    have hknown : w.name ∈ members.map Member.name :=
      hname ▸ List.mem_map_of_mem (List.mem_of_find?_eq_some hm)
    exact ⟨w.name :: seen, List.Subset.refl _, by simp only [hm, if_neg (hs hknown), hcolon, hread]⟩

/-- The members that follow another one are read to the end of the object. -/
theorem readMembers_later (atEnd : Gap) (rest : Bytes) :
    ∀ (ws : List Written) (fuel : Nat) (seen : List String) (r : R) (gap : Gap), ws.length < fuel →
    (∀ w ∈ ws, w.Sets members (set w)) → Alone members ws →
    (∀ w ∈ ws, w.name ∈ members.map Member.name → w.name ∉ seen) →
    readMembers members fuel seen r (gap.1 ++ later atEnd rest ws) = .ok (ws.foldl (fun r w => set w r) r, rest)
  | _, 0, _, _, _, hlt, _, _, _ => absurd hlt (Nat.not_lt_zero _)
  | [], fuel + 1, seen, r, gap, _, _, _, _ => by
    have hbrace : skipBlank (gap.1 ++ later atEnd rest []) = 0x7d :: rest := by
      rw [later, skipBlank_append gap.2, skipBlank_append atEnd.2, skipBlank_cons rfl]
    simp only [readMembers, hbrace, List.foldl_nil]
  | w :: ws, fuel + 1, seen, r, gap, hlt, hsets, halone, hseen => by
    obtain ⟨hw, hsets⟩ := List.forall_mem_cons.1 hsets
    obtain ⟨hother, halone⟩ := List.pairwise_cons.1 halone
    obtain ⟨hunseen, hseen⟩ := List.forall_mem_cons.1 hseen
    have hcomma : skipBlank (gap.1 ++ later atEnd rest (w :: ws)) = 0x2c :: w.onto (later atEnd rest ws) := by
      rw [later, skipBlank_append gap.2, skipBlank_cons rfl]
    obtain ⟨seen', hsub, hmember⟩ := hw.readMember hunseen r (endsValue_later atEnd rest ws)
    -- The names that are remembered are never those of known members still to come.
    have hrest := readMembers_later atEnd rest ws fuel seen' (set w r) w.afterValue (Nat.lt_of_succ_lt_succ hlt) hsets
      halone fun w' hw' hknown hmem => by
        rcases List.mem_cons.1 (hsub hmem) with he | hmem
        · exact hother w' hw' he.symm (he ▸ hknown)
        · exact hseen w' hw' hknown hmem
    simp only [readMembers, hcomma, w.skipBlank_onto, hmember, hrest, List.foldl_cons]

/-- What is read of a document is the standard record with whatever its members set, one after the other. -/
theorem Document.decode_eq_foldl (d : Document) (standard : R) (hsets : ∀ w ∈ d.members, w.Sets members (set w))
    (halone : Alone members d.members) :
    decode members standard d.text = .ok (d.members.foldl (fun r w => set w r) standard) := by
  have hobject : ∃ bs, skipBlank d.text = 0x7b :: bs ∧
      readObject members standard bs = .ok (d.members.foldl (fun r w => set w r) standard, d.after.1) := by
    refine ⟨_, by rw [Document.text, skipBlank_append d.before.2, skipBlank_cons rfl], ?_⟩
    cases hws : d.members with
    | nil =>
      have hbrace : skipBlank (d.atEnd.1 ++ 0x7d :: d.after.1) = 0x7d :: d.after.1 := by
        rw [skipBlank_append d.atEnd.2, skipBlank_cons rfl]
      simp only [readObject, hbrace, List.foldl_nil]
    | cons w ws =>
      rw [hws] at hsets halone
      obtain ⟨hw, hsets⟩ := List.forall_mem_cons.1 hsets
      obtain ⟨hother, halone⟩ := List.pairwise_cons.1 halone
      obtain ⟨seen, hsub, hmember⟩ := hw.readMember (fun _ => List.not_mem_nil) standard
        (endsValue_later d.atEnd d.after.1 ws)
      have hfuel : ws.length < (w.afterValue.1 ++ later d.atEnd d.after.1 ws).length + 1 := by
        have := length_le_later d.atEnd d.after.1 ws
        rw [List.length_append]
        omega
      have hrest := readMembers_later d.atEnd d.after.1 ws _ seen (set w standard) w.afterValue hfuel hsets halone
        fun w' hw' hknown hmem => by
          have he : w'.name = w.name := List.mem_singleton.1 (hsub hmem)
          exact hother w' hw' he.symm (he ▸ hknown)
      simp only [readObject, w.skipBlank_onto, hmember, hrest, List.foldl_cons]
  obtain ⟨bs, hbrace, hread⟩ := hobject
  have hblank : skipBlank d.after.1 = [] := List.dropWhile_eq_nil_iff.2 d.after.2
  simp only [decode, readRecord, hbrace, hread, hblank, List.isEmpty_nil, if_true]

/-! ## Field by field -/

/-- The values that stand under a name. -/
def values (name : String) (ws : List Written) : List Bytes := (ws.filter (·.name = name)).map Written.value

theorem values_cons (name : String) (w : Written) (ws : List Written) :
    values name (w :: ws) = if w.name = name then w.value :: values name ws else values name ws := by
  unfold values
  by_cases hname : w.name = name <;> simp [hname]

theorem mem_values {w : Written} {ws : List Written} (h : w ∈ ws) : w.value ∈ values w.name ws :=
  List.mem_map_of_mem (List.mem_filter.2 ⟨h, decide_eq_true rfl⟩)

/-- At most one value stands under each known name. -/
theorem alone_of_values : ∀ {ws : List Written},
    (∀ name ∈ members.map Member.name, (values name ws).length ≤ 1) → Alone members ws
  | [], _ => List.Pairwise.nil
  | w :: ws, h => by
    refine List.pairwise_cons.2 ⟨fun w' hw' he hknown => ?_, alone_of_values fun name hknown => ?_⟩
    · have hmem : w'.value ∈ values w.name ws := he ▸ mem_values hw'
      have hone := h w.name hknown
      rw [values_cons, if_pos rfl, List.length_cons] at hone
      exact absurd (List.length_pos_of_mem hmem) (by omega)
    · have hone := h name hknown
      rw [values_cons] at hone
      split at hone
      · exact Nat.le_of_succ_le hone
      · exact hone

/-- What stands under a name: nothing, or one value, in one of the forms of `x`. -/
inductive Holds {α : Type} (form : α → Bytes → Prop) : Option α → List Bytes → Prop
  | absent : Holds form none []
  | present {x : α} {value : Bytes} : form x value → Holds form (some x) [value]

section

variable {α : Type} {form : α → Bytes → Prop} {x? : Option α} {name : String} {ws : List Written}

theorem Holds.length_le (h : Holds form x? (values name ws)) : (values name ws).length ≤ 1 := by
  generalize values name ws = vs at h
  cases h with
  | absent => exact Nat.zero_le 1
  | present => exact Nat.le_refl 1

theorem Holds.form_of_mem (h : Holds form x? (values name ws)) {w : Written} (hw : w ∈ ws) (hname : w.name = name) :
    ∃ x, x? = some x ∧ form x w.value := by
  have hmem : w.value ∈ values name ws := hname ▸ mem_values hw
  generalize values name ws = vs at h hmem
  cases h with
  | absent => cases hmem
  | present hform => exact ⟨_, rfl, List.mem_singleton.1 hmem ▸ hform⟩

theorem Alike.values {ws' : List Written} (h : Alike members ws ws') (hname : name ∈ members.map Member.name) :
    (values name ws).Perm (values name ws') := by
  have hfilter : ∀ ws : List Written,
      Json.values name ws = Json.values name (ws.filter (·.name ∈ members.map Member.name)) := by
    intro ws
    unfold Json.values
    rw [List.filter_filter]
    refine congrArg (List.map Written.value) (List.filter_congr fun w _ => ?_)
    by_cases hw : w.name = name
    · simp [hw, hname]
    · simp [hw]
  rw [hfilter ws, hfilter ws']
  exact (h.filter _).map _

theorem Holds.of_alike {ws' : List Written} (h : Holds form x? (values name ws)) (ha : Alike members ws ws')
    (hname : name ∈ members.map Member.name) : Holds form x? (values name ws') := by
  have hperm := ha.values hname
  generalize values name ws = vs at h hperm
  cases h with
  | absent =>
    rw [List.nil_perm.1 hperm]
    exact .absent
  | present hform =>
    rw [← List.singleton_perm.1 hperm]
    exact .present hform

/-- A field that only members of one name set holds in the end what stands under that name. -/
theorem Holds.get_foldl (get : R → α) (h : Holds form x? (values name ws))
    (hget : ∀ w r, get (set w r) = if w.name = name then x?.getD (get r) else get r) (r : R) :
    get (ws.foldl (fun r w => set w r) r) = x?.getD (get r) := by
  -- Once the field has been set, setting it again to the same value changes nothing.
  have hfold : ∀ (ws : List Written) (r : R), get (ws.foldl (fun r w => set w r) r) =
      if values name ws = [] then get r else x?.getD (get r) := by
    intro ws
    induction ws with
    | nil => exact fun _ => rfl
    | cons w ws ih =>
      intro r
      rw [List.foldl_cons, ih, hget]
      unfold values
      by_cases hname : w.name = name
      · cases x? <;> simp [hname]
      · simp [hname]
  rw [hfold]
  generalize values name ws = vs at h
  cases h <;> rfl

end

/-- A known member with the forms of its values, and the value that stands under its name if there is one. -/
structure Entry (R : Type) where
  {α : Type}
  name : String
  read : Bytes → Read α
  put : α → R → R
  form : α → Bytes → Prop
  x? : Option α
  finds : ∀ {x : α} {value : Bytes}, form x value → Finds read value x

namespace Entry

variable {es : List (Entry R)} {e : Entry R} {w : Written}

def member (e : Entry R) : Member R := .of e.name e.read e.put

/-- What a member makes of a record, these being the known ones. -/
def apply (es : List (Entry R)) (w : Written) (r : R) : R :=
  match es.find? (·.name = w.name) with
  | none => r
  | some e => e.x?.elim r fun x => e.put x r

theorem sets_apply (h : ∀ e ∈ es, Holds e.form e.x? (values e.name ws)) (hw : w ∈ ws) :
    w.Sets (es.map member) (apply es w) := by
  have hfind : (es.map member).find? (·.name = w.name) = (es.find? (·.name = w.name)).map member := by
    rw [List.find?_map]
    rfl
  unfold Written.Sets
  rw [hfind]
  cases hm : es.find? (·.name = w.name) with
  | none =>
    refine funext fun r => ?_
    simp only [apply, hm, id_eq]
  | some e =>
    obtain ⟨x, hx, hform⟩ := (h e (List.mem_of_find?_eq_some hm)).form_of_mem hw (eq_of_find? hm).symm
    intro r before rest hb hrest
    simp only [member, Member.of, apply, hm, hx, e.finds hform before rest hb hrest, Option.elim_some]

/-- `get` is the field of a record that `e` sets; the other entries leave it alone. -/
structure Sees (es : List (Entry R)) (e : Entry R) (get : R → e.α) : Prop where
  own : ∀ x r, get (e.put x r) = x
  others : ∀ e' ∈ es, e'.name ≠ e.name → ∀ x r, get (e'.put x r) = get r

theorem Sees.get_apply (hnd : (es.map name).Nodup) (he : e ∈ es) {get : R → e.α} (hget : Sees es e get) (w : Written)
    (r : R) : get (apply es w r) = if w.name = e.name then e.x?.getD (get r) else get r := by
  unfold apply
  cases hm : es.find? (·.name = w.name) with
  | none =>
    have hne : w.name ≠ e.name := fun hname => by
      have := List.find?_eq_none.1 hm e he
      exact this (decide_eq_true hname.symm)
    rw [if_neg hne]
  | some e' =>
    have hmem := List.mem_of_find?_eq_some hm
    have hname : e'.name = w.name := eq_of_find? hm
    by_cases hown : w.name = e.name
    · obtain rfl := List.inj_on_of_nodup_map hnd hmem he (hname.trans hown)
      rw [if_pos hown]
      cases hx : e'.x? with
      | none => simp only [hx, Option.elim_none, Option.getD_none]
      | some x => simp only [hx, Option.elim_some, Option.getD_some, hget.own]
    · have hothers := hget.others e' hmem fun he' => hown (hname.symm.trans he')
      rw [if_neg hown]
      cases hx : e'.x? with
      | none => simp only [hx, Option.elim_none]
      | some x => simp only [hx, Option.elim_some, hothers]

end Entry

/-- **A document is read field by field**: each field of what is read holds what stands under the name of its member,
and if there is nothing the standard. -/
theorem Document.decode_text (d : Document) (es : List (Entry R)) (standard : R) (hnd : (es.map Entry.name).Nodup)
    (h : ∀ e ∈ es, Holds e.form e.x? (values e.name d.members)) :
    ∃ r, decode (es.map Entry.member) standard d.text = .ok r ∧
      ∀ e ∈ es, ∀ get : R → e.α, Entry.Sees es e get → get r = e.x?.getD (get standard) := by
  have halone : Alone (es.map Entry.member) d.members := alone_of_values fun name hname => by
    obtain ⟨member, hmember, rfl⟩ := List.mem_map.1 hname
    obtain ⟨e, he, rfl⟩ := List.mem_map.1 hmember
    exact (h e he).length_le
  exact ⟨_, d.decode_eq_foldl standard (fun w hw => Entry.sets_apply h hw) halone, fun e he get hget =>
    (h e he).get_foldl get (hget.get_apply hnd he) standard⟩

end

end Json

/-! ## Settings and preferences -/

open Json

namespace Settings

variable {d d' : Document} {name? : Option (Option String)} {tracing? : Option Bool}

/-- The known members of a settings document stand there at most once each and have values of their types. -/
structure Stands (d : Document) (name? : Option (Option String)) (tracing? : Option Bool) : Prop where
  name : Holds IsOptionalString name? (values "name" d.members)
  tracing : Holds IsBool tracing? (values "trace_transitions" d.members)

theorem Stands.of_alike (h : Stands d name? tracing?) (ha : Alike Settings.members d.members d'.members) :
    Stands d' name? tracing? := ⟨h.name.of_alike ha (by decide), h.tracing.of_alike ha (by decide)⟩

def entries (name? : Option (Option String)) (tracing? : Option Bool) : List (Entry Settings) := [
  ⟨"name", readOptionalString, fun name s => { s with name }, IsOptionalString, name?, finds_optionalString⟩,
  ⟨"trace_transitions", readBool, fun tracing s => { s with tracing }, IsBool, tracing?, finds_bool⟩]

/-- **Settings are read field by field**: what stands in the document, and otherwise the standard. -/
theorem decode_text (h : Stands d name? tracing?) :
    Settings.decode d.text = .ok ⟨name?.getD none, tracing?.getD false⟩ := by
  obtain ⟨s, hs, hget⟩ := d.decode_text (entries name? tracing?) Settings.standard (by simp [entries])
    (List.forall_mem_cons.2 ⟨h.name, List.forall_mem_singleton.2 h.tracing⟩)
  have hname : s.name = name?.getD none := hget _ (.head _) Settings.name ⟨fun _ _ => rfl, by simp [entries]⟩
  have htracing : s.tracing = tracing?.getD false :=
    hget _ (.tail _ (.head _)) Settings.tracing ⟨fun _ _ => rfl, by simp [entries]⟩
  rw [← hname, ← htracing]
  exact hs

end Settings

namespace Preferences

variable {d d' : Document} {batch? : Option Nat} {logFilter? profile? : Option String}

/-- The known members of a preferences document stand there at most once each and have values of their types. -/
structure Stands (d : Document) (batch? : Option Nat) (logFilter? profile? : Option String) : Prop where
  batch : Holds IsNatural batch? (values "batch" d.members)
  logFilter : Holds IsString logFilter? (values "log_filter" d.members)
  profile : Holds IsString profile? (values "profile" d.members)

theorem Stands.of_alike (h : Stands d batch? logFilter? profile?)
    (ha : Alike Preferences.members d.members d'.members) : Stands d' batch? logFilter? profile? :=
  ⟨h.batch.of_alike ha (by decide), h.logFilter.of_alike ha (by decide), h.profile.of_alike ha (by decide)⟩

def entries (batch? : Option Nat) (logFilter? profile? : Option String) : List (Entry Preferences) := [
  ⟨"batch", readNatural, fun batch p => { p with batch }, IsNatural, batch?, finds_natural⟩,
  ⟨"log_filter", readString, fun logFilter p => { p with logFilter }, IsString, logFilter?, finds_string⟩,
  ⟨"profile", readString, fun profile p => { p with profile }, IsString, profile?, finds_string⟩]

/-- **Preferences are read field by field**: what stands in the document, and otherwise the standard. -/
theorem decode_text (h : Stands d batch? logFilter? profile?) :
    Preferences.decode d.text = .ok ⟨batch?.getD 16, logFilter?.getD "info", profile?.getD "default"⟩ := by
  obtain ⟨p, hp, hget⟩ := d.decode_text (entries batch? logFilter? profile?) Preferences.standard (by simp [entries])
    (List.forall_mem_cons.2 ⟨h.batch, List.forall_mem_cons.2 ⟨h.logFilter, List.forall_mem_singleton.2 h.profile⟩⟩)
  have hbatch : p.batch = batch?.getD 16 := hget _ (.head _) Preferences.batch ⟨fun _ _ => rfl, by simp [entries]⟩
  have hlogFilter : p.logFilter = logFilter?.getD "info" :=
    hget _ (.tail _ (.head _)) Preferences.logFilter ⟨fun _ _ => rfl, by simp [entries]⟩
  have hprofile : p.profile = profile?.getD "default" :=
    hget _ (.tail _ (.tail _ (.head _))) Preferences.profile ⟨fun _ _ => rfl, by simp [entries]⟩
  rw [← hbatch, ← hlogFilter, ← hprofile]
  exact hp

end Preferences

/-- **Documents are read tolerantly**: a saved profile and saved preferences are loaded field by field from every
document whose known members stand there at most once each with values of their types. The order of the members and the
unknown ones make no difference. -/
theorem documents_read_tolerantly :
    (∀ {S : Type} (b : Backend S) (profile : String) (s s' : S) (d : Document) (name? : Option (Option String))
      (tracing? : Option Bool), Profiles.isName profile = true → b.read profile s = (.ok (some d.text), s') →
      Settings.Stands d name? tracing? →
      Profiles.load b profile s = (.ok (some ⟨name?.getD none, tracing?.getD false⟩), s')) ∧
    (∀ (t : FileTree) (d : Document) (batch? : Option Nat) (logFilter? profile? : Option String),
      t.read SettingsDirectory.preferencesPath = .ok d.text → Preferences.Stands d batch? logFilter? profile? →
      SettingsDirectory.loadPreferences t =
        .ok (some ⟨batch?.getD 16, logFilter?.getD "info", profile?.getD "default"⟩)) ∧
    (∀ (d d' : Document) (name? : Option (Option String)) (tracing? : Option Bool), Settings.Stands d name? tracing? →
      Alike Settings.members d.members d'.members → Settings.decode d'.text = Settings.decode d.text) ∧
    ∀ (d d' : Document) (batch? : Option Nat) (logFilter? profile? : Option String),
      Preferences.Stands d batch? logFilter? profile? → Alike Preferences.members d.members d'.members →
      Preferences.decode d'.text = Preferences.decode d.text := by
  refine ⟨?load, ?loadPreferences, ?alike, ?alikePreferences⟩
  case load =>
    intro S b profile s s' d name? tracing? hname hread hstands
    have hdecode := Settings.decode_text hstands
    obtain ⟨byte, bytes, htext⟩ := List.exists_cons_of_ne_nil d.text_ne_nil
    rw [htext] at hread hdecode
    rw [Profiles.load, if_neg (by rw [hname]; decide), hread]
    dsimp only
    rw [hdecode]
  case loadPreferences =>
    intro t d batch? logFilter? profile? hread hstands
    have hdecode := Preferences.decode_text hstands
    simp only [SettingsDirectory.loadPreferences, SettingsDirectory.readIfPresent, hread, hdecode]
  case alike =>
    intro d d' name? tracing? hstands halike
    rw [Settings.decode_text hstands, Settings.decode_text (hstands.of_alike halike)]
  case alikePreferences =>
    intro d d' batch? logFilter? profile? hstands halike
    rw [Preferences.decode_text hstands, Preferences.decode_text (hstands.of_alike halike)]

/-- A member that nobody asks for, with a quotation mark and brackets in the strings of its value. -/
def Json.Written.nested : Written := .of .none .none "x" _ <|
  .array <| .lastElement <| .element blanks_nil
    (.object <| .lastMember <| .member blanks_nil (.plain 0x7d (by decide) .nil) blanks_nil <|
      .element blanks_nil (.string (.short 0x22 '"' (by decide) (.plain 0x5d (by decide) .nil))) blanks_nil)
    blanks_nil

/-- The name `m`, with blanks around the colon and one letter of `name` as an escape. -/
def Json.Written.escaped : Written where
  name := "name"
  spelling := _
  value := [0x22, 0x6d, 0x22]
  beforeName := .none
  afterName := .space
  beforeValue := .newline
  afterValue := .none
  spelled := .cons (.plain 'n' (by decide) (by decide) (by decide)) <|
    .cons (.number 'a' _ (.intro _ _ _ _ 0 0 6 1 (.small 0 (by decide)) (.small 0 (by decide)) (.small 6 (by decide))
      (.small 1 (by decide)))) <|
    .cons (.plain 'm' (by decide) (by decide) (by decide)) <|
    .cons (.plain 'e' (by decide) (by decide) (by decide)) .nil
  isValue := .string (.plain 0x6d (by decide) .nil)

/-- The document with these members, and a line to itself. -/
def Json.Document.ofMembers (members : List Written) : Document where
  members
  before := .newline
  atEnd := .none
  after := .newline

/-- Settings behind a member that nobody asks for, and in another order than they are written in. -/
def Settings.sample : Document :=
  .ofMembers [.nested, .of .none .none "trace_transitions" [0x74, 0x72, 0x75, 0x65] .true, .escaped]

/-- Preferences with one member and another that nobody asks for. -/
def Preferences.sample : Document :=
  .ofMembers [.of .none .none "profile" [0x22, 0x6d, 0x22] (.string (.plain 0x6d (by decide) .nil)), .nested]

/-- A settings directory with these documents. -/
def SettingsDirectory.sample : FileTree := ⟨[
  (["profiles"], .directory), (["profiles", "m.json"], .file Settings.sample.text),
  (["prefs.json"], .file Preferences.sample.text)]⟩

theorem documents_read_tolerantly_sample :
    Profiles.load SettingsDirectory.profiles "m" SettingsDirectory.sample =
      (.ok (some ⟨some "m", true⟩), SettingsDirectory.sample) ∧
    SettingsDirectory.loadPreferences SettingsDirectory.sample = .ok (some ⟨16, "info", "m"⟩) ∧
    Settings.decode (Document.ofMembers Settings.sample.members.reverse).text = Settings.decode Settings.sample.text ∧
    Preferences.decode (Document.ofMembers Preferences.sample.members.reverse).text =
      Preferences.decode Preferences.sample.text := by
  have hspelled : SpellsAll "m".toList [0x6d] := .cons (.plain 'm' (by decide) (by decide) (by decide)) .nil
  have hm : IsString "m" [0x22, 0x6d, 0x22] := .intro hspelled
  have hsettings : Settings.Stands Settings.sample (some (some "m")) (some true) :=
    ⟨.present (.some hm), .present .true⟩
  have hpreferences : Preferences.Stands Preferences.sample none none (some "m") := ⟨.absent, .absent, .present hm⟩
  have hreverse : ∀ {R : Type} (members : List (Member R)) (ws : List Written), Alike members ws ws.reverse :=
    fun _ ws => ws.reverse_perm.symm.filter _
  exact ⟨documents_read_tolerantly.1 SettingsDirectory.profiles "m" _ _ Settings.sample _ _ (by decide) rfl hsettings,
    documents_read_tolerantly.2.1 _ Preferences.sample _ _ _ rfl hpreferences,
    documents_read_tolerantly.2.2.1 _ _ _ _ hsettings (hreverse _ _),
    documents_read_tolerantly.2.2.2 _ _ _ _ _ hpreferences (hreverse _ _)⟩

end StreamMerge
