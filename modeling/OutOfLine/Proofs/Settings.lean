import Mathlib.Data.List.Induction
import Mathlib.Data.List.Sort
import Mathlib.Data.List.TakeWhile
import OutOfLine.Settings

/-!
Settings in layers. `Setting.Written` sets down which values are right for a setting and what they
mean, without the reader of patches; a candidate speaks for its settings only if it is right as a
whole. Every setting is then decided by the last candidate that gives it.
-/

namespace OutOfLine

namespace Text

/-- The text without the blanks around it. -/
structure Trims (text inner : Text) : Prop where
  around : ∃ front back, text = front ++ (inner ++ back) ∧
    (∀ c ∈ front, isBlank c = true) ∧ ∀ c ∈ back, isBlank c = true
  starts : ∀ c ∈ inner.head?, isBlank c = false
  ends : ∀ c ∈ inner.getLast?, isBlank c = false

theorem dropWhile_of_head? {drops : Char → Bool} {text : Text}
    (stops : ∀ c ∈ text.head?, drops c = false) : text.dropWhile drops = text := by
  cases text with
  | nil => rfl
  | cons c rest => exact List.dropWhile_cons_of_neg (by simp [stops c rfl])

theorem head?_dropWhile (drops : Char → Bool) (text : Text) :
    ∀ c ∈ (text.dropWhile drops).head?, drops c = false := by
  intro c first
  have stopped := List.head?_dropWhile_not drops text
  rw [Option.mem_def.mp first] at stopped
  exact stopped

theorem trims_trim (text : Text) : Trims text (trim text) := by
  have front := List.takeWhile_append_dropWhile (p := isBlank) (l := text)
  generalize started : text.dropWhile isBlank = rest at front
  have back := List.takeWhile_append_dropWhile (p := isBlank) (l := rest.reverse)
  have trimmed : trim text = (rest.reverse.dropWhile isBlank).reverse := by rw [← started]; rfl
  have split : rest = trim text ++ (rest.reverse.takeWhile isBlank).reverse := by
    rw [trimmed, ← List.reverse_append, back, List.reverse_reverse]
  refine ⟨⟨text.takeWhile isBlank, (rest.reverse.takeWhile isBlank).reverse, ?_, ?_, ?_⟩, ?_, ?_⟩
  · rw [← split, front]
  · exact fun c member => List.mem_takeWhile_imp member
  · exact fun c member => List.mem_takeWhile_imp (List.mem_reverse.mp member)
  · intro c first
    refine head?_dropWhile isBlank text c ?_
    rw [started, split]
    exact List.mem_head?_append_of_mem_head? first
  · intro c last
    rw [trimmed, List.getLast?_reverse] at last
    exact head?_dropWhile isBlank rest.reverse c last

theorem Trims.eq_trim {text inner : Text} (trims : Trims text inner) : inner = trim text := by
  obtain ⟨front, back, rfl, blankFront, blankBack⟩ := trims.around
  rw [trim, List.dropWhile_append_of_pos blankFront, trimEnd, dropEndWhile]
  cases inner with
  | nil =>
      have gone : back.dropWhile isBlank = [] := List.dropWhile_eq_nil_iff.mpr blankBack
      rw [List.nil_append, gone]
      rfl
  | cons c rest =>
      have kept : (c :: rest ++ back).dropWhile isBlank = c :: rest ++ back :=
        dropWhile_of_head? fun first same => trims.starts first same
      have stops : (c :: rest).reverse.dropWhile isBlank = (c :: rest).reverse :=
        dropWhile_of_head? fun last same => trims.ends last (by rwa [List.head?_reverse] at same)
      rw [kept, List.reverse_append,
        List.dropWhile_append_of_pos fun last member => blankBack last (List.mem_reverse.mp member),
        stops, List.reverse_reverse]

theorem trims_iff {text inner : Text} : Trims text inner ↔ inner = trim text :=
  ⟨Trims.eq_trim, fun same => same ▸ trims_trim text⟩

theorem trim_trim (text : Text) : trim (trim text) = trim text := by
  have trims := trims_trim text
  exact (Trims.eq_trim ⟨⟨[], [], by simp, by simp, by simp⟩, trims.starts, trims.ends⟩).symm

theorem precedes_irrefl (text : Text) : precedes text text = false := by
  induction text with
  | nil => rfl
  | cons c text ih => simp [precedes, ih]

end Text

namespace WordSet

theorem contains_insert {set : WordSet} {word other : Text} :
    (set.insert word).contains other ↔ other = word ∨ set.contains other := by
  simp [contains, insert, mem_insertInto]

theorem contains_ofList {words : List Text} {word : Text} :
    (ofList words).contains word ↔ word ∈ words := by
  have inserted : ∀ set : WordSet,
      (words.foldl (fun set word => set.insert word) set).contains word ↔
        word ∈ words ∨ set.contains word := by
    induction words with
    | nil => simp
    | cons first others ih =>
        intro set
        rw [List.foldl_cons, ih, contains_insert, List.mem_cons]
        grind
  exact (inserted empty).trans (by simp [contains, empty])

theorem eq_of_contains_iff {set other : WordSet}
    (same : ∀ word, set.contains word ↔ other.contains word) : set = other := by
  have irreflexive : Std.Irrefl (fun word other => Text.precedes word other = true) :=
    ⟨fun word => by simp [Text.precedes_irrefl]⟩
  have antisymmetric : Std.Antisymm (fun word other => Text.precedes word other = true) :=
    ⟨fun word other before after => by
      simpa [Text.precedes_irrefl] using Text.precedes_trans before after⟩
  obtain ⟨words, sorted⟩ := set
  obtain ⟨others, sortedOthers⟩ := other
  have equal : words = others :=
    sorted.eq_of_mem_iff sortedOthers fun word => by simpa [contains] using same word
  subst equal
  rfl

end WordSet

namespace Value

/-- The member under a key; one that is null counts as missing. -/
def stated? (key : String) (payload : Value) : Option Value :=
  match payload.field? key with
  | some .null => none
  | member => member

end Value

inductive Setting where
  | afterDefinition
  | betweenDefinitions
  | afterDefinitions
  | discarded
  | level
deriving DecidableEq, Repr

namespace Setting

def Content : Setting → Type
  | .afterDefinition | .betweenDefinitions | .afterDefinitions => Text
  | .discarded => WordSet
  | .level => Level

def of (settings : Settings) : (setting : Setting) → setting.Content
  | .afterDefinition => settings.style.afterDefinition
  | .betweenDefinitions => settings.style.betweenDefinitions
  | .afterDefinitions => settings.style.afterDefinitions
  | .discarded => settings.style.discarded
  | .level => settings.level

theorem settings_ext {settings other : Settings} (same : ∀ setting, of settings setting = of other setting) :
    settings = other := by
  obtain ⟨⟨after, between, afterAll, discarded⟩, level⟩ := settings
  have texts := same .afterDefinition
  have betweens := same .betweenDefinitions
  have ends := same .afterDefinitions
  have words := same .discarded
  have levels := same .level
  simp only [of] at texts betweens ends words levels
  rw [texts, betweens, ends, words, levels]

/-- The value that a candidate has in the place of a setting. -/
def stated? (candidate : Value) : Setting → Option Value
  | .afterDefinition => candidate.stated? "textAfterDef"
  | .betweenDefinitions => candidate.stated? "textBetweenMultipleDefs"
  | .afterDefinitions => candidate.stated? "textAfterMultipleDefs"
  | .discarded => candidate.stated? "discardedSegments"
  | .level => (candidate.stated? "logging").bind (·.stated? "level")

/-- The values of the right type for a setting, and what they say. Texts are taken as they are; of
the words to discard only what is left without blanks counts. -/
inductive Written : (setting : Setting) → Value → setting.Content → Prop
  | afterDefinition (text : String) : Written .afterDefinition (.string text) text.toList
  | betweenDefinitions (text : String) : Written .betweenDefinitions (.string text) text.toList
  | afterDefinitions (text : String) : Written .afterDefinitions (.string text) text.toList
  | discarded (entries : List String) (words : WordSet)
      (members : ∀ word, words.contains word ↔
        word ≠ [] ∧ ∃ entry ∈ entries, Text.Trims entry.toList word) :
      Written .discarded (.array (entries.map .string)) words
  | named (level : Level) : Written .level (.string level.name) level
  | keyed (level : Level) : Written .level (.object [(level.name, .null)]) level

/-- A candidate is an object in which no known key has a value of a wrong type. -/
structure WellFormed (candidate : Value) : Prop where
  object : ∃ fields, candidate = .object fields
  logging : ∀ value, candidate.stated? "logging" = some value → ∃ fields, value = .object fields
  typed : ∀ setting value, stated? candidate setting = some value →
    ∃ content, Written setting value content

/-- A candidate speaks for a setting if it is right as a whole and has a value in its place. -/
def Gives (setting : Setting) (candidate : Value) (content : setting.Content) : Prop :=
  WellFormed candidate ∧ ∃ value, stated? candidate setting = some value ∧ Written setting value content

def Ungiven (setting : Setting) (candidates : List Value) : Prop :=
  ∀ candidate ∈ candidates, ∀ content, ¬ Gives setting candidate content

def LastGiven (setting : Setting) (candidates : List Value) (content : setting.Content) : Prop :=
  ∃ before candidate after, candidates = before ++ candidate :: after ∧
    Gives setting candidate content ∧ Ungiven setting after

theorem ungiven_cons {setting : Setting} {candidate : Value} {candidates : List Value} :
    Ungiven setting (candidate :: candidates) ↔
      (∀ content, ¬ Gives setting candidate content) ∧ Ungiven setting candidates :=
  List.forall_mem_cons

theorem lastGiven_cons {setting : Setting} {candidate : Value} {candidates : List Value}
    {content : setting.Content} :
    LastGiven setting (candidate :: candidates) content ↔
      LastGiven setting candidates content ∨
        Gives setting candidate content ∧ Ungiven setting candidates := by
  constructor
  · rintro ⟨before, last, after, split, gives, ungiven⟩
    cases before with
    | nil =>
        obtain ⟨rfl, rfl⟩ := List.cons.inj split
        exact .inr ⟨gives, ungiven⟩
    | cons first before =>
        exact .inl ⟨before, last, after, (List.cons.inj split).2, gives, ungiven⟩
  · rintro (⟨before, last, after, rfl, gives, ungiven⟩ | ⟨gives, ungiven⟩)
    · exact ⟨candidate :: before, last, after, rfl, gives, ungiven⟩
    · exact ⟨[], candidate, candidates, rfl, gives, ungiven⟩

theorem not_lastGiven_nil {setting : Setting} {content : setting.Content} :
    ¬ LastGiven setting [] content := by
  rintro ⟨before, candidate, after, split, _⟩
  simp at split

end Setting

namespace Settings

theorem contains_normalizeWords {words : WordSet} {word : Text} :
    (normalizeWords words).contains word ↔
      word ≠ [] ∧ ∃ entry ∈ words.words, Text.trim entry = word := by
  simp [normalizeWords, WordSet.contains_ofList, and_comm]

theorem contains_normalizeWords_ofList {entries : List Text} {word : Text} :
    (normalizeWords (.ofList entries)).contains word ↔
      word ≠ [] ∧ ∃ entry ∈ entries, Text.Trims entry word := by
  have listed : ∀ entry, entry ∈ (WordSet.ofList entries).words ↔ entry ∈ entries := fun entry => by
    simpa [WordSet.contains] using @WordSet.contains_ofList entries entry
  rw [contains_normalizeWords]
  simp only [listed, Text.trims_iff, eq_comm]

theorem normalizeWords_idempotent (words : WordSet) :
    normalizeWords (normalizeWords words) = normalizeWords words := by
  refine WordSet.eq_of_contains_iff fun word => ?_
  have member : ∀ entry, entry ∈ (normalizeWords words).words ↔
      entry ≠ [] ∧ ∃ raw ∈ words.words, Text.trim raw = entry := fun entry => by
    simpa [WordSet.contains] using @contains_normalizeWords words entry
  simp only [contains_normalizeWords, member]
  constructor
  · rintro ⟨nonempty, entry, ⟨_, raw, listed, rfl⟩, rfl⟩
    exact ⟨nonempty, raw, listed, (Text.trim_trim raw).symm⟩
  · rintro ⟨nonempty, raw, listed, rfl⟩
    exact ⟨nonempty, _, ⟨nonempty, raw, listed, rfl⟩, Text.trim_trim raw⟩

theorem normalize_idempotent (settings : Settings) : settings.normalize.normalize = settings.normalize := by
  simp [normalize, normalizeWords_idempotent]

namespace Patch

/-- What a patch makes of a setting once the settings are normalised. -/
def content? (patch : Patch) : (setting : Setting) → Option setting.Content
  | .afterDefinition => patch.afterDefinition
  | .betweenDefinitions => patch.betweenDefinitions
  | .afterDefinitions => patch.afterDefinitions
  | .discarded => patch.discarded.map fun entries => normalizeWords (.ofList entries)
  | .level => patch.level

theorem of_normalize_apply (settings : Settings) (patch : Patch) (setting : Setting) :
    setting.of (settings.apply patch).normalize =
      (patch.content? setting).getD (setting.of settings.normalize) := by
  cases setting with
  | discarded =>
      simp only [Setting.of, normalize, apply, content?]
      cases patch.discarded <;> rfl
  | _ => rfl

/-- The reader of patches on a single value. -/
def read? : (setting : Setting) → Value → Option setting.Content
  | .afterDefinition | .betweenDefinitions | .afterDefinitions => text?
  | .discarded => fun value => (texts? value).map fun entries => normalizeWords (.ofList entries)
  | .level => level?

theorem text?_eq_some_iff {value : Value} {text : Text} :
    text? value = some text ↔ ∃ written, value = .string written ∧ text = written.toList := by
  cases value with
  | string written => simp [text?, eq_comm]
  | _ => simp [text?]

theorem texts?_eq_some_iff {value : Value} {texts : List Text} :
    texts? value = some texts ↔
      ∃ entries : List String, value = .array (entries.map .string) ∧ texts = entries.map String.toList := by
  cases value with
  | array items =>
      simp only [texts?, Value.array.injEq]
      induction items generalizing texts with
      | nil =>
          simp only [List.mapM_nil, Option.pure_def, Option.some.injEq, List.nil_eq, List.map_eq_nil_iff]
          constructor
          · rintro rfl
            exact ⟨[], rfl, rfl⟩
          · rintro ⟨entries, rfl, rfl⟩
            rfl
      | cons item items ih =>
          simp only [List.mapM_cons, Option.bind_eq_bind, Option.bind_eq_some_iff, Option.pure_def,
            Option.some.injEq, text?_eq_some_iff, ih]
          constructor
          · rintro ⟨_, ⟨entry, rfl, rfl⟩, _, ⟨entries, rfl, rfl⟩, rfl⟩
            exact ⟨entry :: entries, rfl, rfl⟩
          · rintro ⟨entries, split, rfl⟩
            cases entries with
            | nil => simp at split
            | cons entry entries =>
                obtain ⟨rfl, rfl⟩ := List.cons.inj split
                exact ⟨_, ⟨entry, rfl, rfl⟩, _, ⟨entries, rfl, rfl⟩, rfl⟩
  | _ => simp [texts?]

theorem ofName?_eq_some_iff {name : String} {level : Level} :
    Level.ofName? name = some level ↔ name = level.name := by
  constructor
  · intro found
    have matches' := List.find?_some (p := fun level : Level => level.name == name) found
    exact (beq_iff_eq.mp matches').symm
  · rintro rfl
    cases level <;> rfl

theorem level?_eq_some_iff {value : Value} {level : Level} :
    level? value = some level ↔
      value = .string level.name ∨ value = .object [(level.name, .null)] := by
  unfold level?
  split
  · simp [ofName?_eq_some_iff]
  · simp [ofName?_eq_some_iff]
  · rename_i notString notKeyed
    constructor
    · simp
    · rintro (rfl | rfl)
      · exact absurd rfl (notString level.name)
      · exact absurd rfl (notKeyed level.name)

theorem read?_eq_some_iff {setting : Setting} {value : Value} {content : setting.Content} :
    read? setting value = some content ↔ setting.Written value content := by
  constructor
  · intro read
    cases setting with
    | afterDefinition =>
        obtain ⟨text, rfl, rfl⟩ := text?_eq_some_iff.mp read
        exact .afterDefinition text
    | betweenDefinitions =>
        obtain ⟨text, rfl, rfl⟩ := text?_eq_some_iff.mp read
        exact .betweenDefinitions text
    | afterDefinitions =>
        obtain ⟨text, rfl, rfl⟩ := text?_eq_some_iff.mp read
        exact .afterDefinitions text
    | discarded =>
        obtain ⟨_, texts, rfl⟩ := Option.map_eq_some_iff.mp read
        obtain ⟨entries, rfl, rfl⟩ := texts?_eq_some_iff.mp texts
        exact .discarded entries _ fun word => by simp [contains_normalizeWords_ofList]
    | level =>
        rcases level?_eq_some_iff.mp read with rfl | rfl
        · exact .named content
        · exact .keyed content
  · intro written
    cases written with
    | discarded entries words members =>
        have texts : texts? (.array (entries.map .string)) = some (entries.map String.toList) :=
          texts?_eq_some_iff.mpr ⟨entries, rfl, rfl⟩
        refine Option.map_eq_some_iff.mpr ⟨_, texts, WordSet.eq_of_contains_iff fun word => ?_⟩
        simp [contains_normalizeWords_ofList, members]
    | named level => exact level?_eq_some_iff.mpr (.inl rfl)
    | keyed level => exact level?_eq_some_iff.mpr (.inr rfl)
    | _ => rfl

theorem member?_eq_some_iff {α : Type} {read : Value → Option α} {key : String} {payload : Value}
    {found : Option α} :
    member? read key payload = some found ↔
      found = (payload.stated? key).bind read ∧
        ∀ value, payload.stated? key = some value → ∃ content, read value = some content := by
  unfold member? Value.stated?
  rcases payload.field? key with _ | value
  · simp [eq_comm]
  · have readable : (read value).map some = some found ↔
        found = read value ∧ ∃ content, read value = some content := by
      cases read value <;> simp [eq_comm]
    cases value with
    | null => simp [eq_comm]
    | _ => simpa using readable

theorem loggedLevel?_eq_some_iff {value : Value} {found : Option Level} :
    loggedLevel? value = some found ↔
      (∃ fields, value = .object fields) ∧ member? level? "level" value = some found := by
  cases value <;> simp [loggedLevel?]

theorem ofValue?_eq_some_iff {fields : List (String × Value)} {patch : Patch} :
    ofValue? (.object fields) = some patch ↔
      ∃ logging, member? loggedLevel? "logging" (.object fields) = some logging ∧
        patch.level = logging.join ∧
        member? text? "textAfterDef" (.object fields) = some patch.afterDefinition ∧
        member? text? "textBetweenMultipleDefs" (.object fields) = some patch.betweenDefinitions ∧
        member? text? "textAfterMultipleDefs" (.object fields) = some patch.afterDefinitions ∧
        member? texts? "discardedSegments" (.object fields) = some patch.discarded := by
  simp only [ofValue?, Option.bind_eq_bind, Option.bind_eq_some_iff, Option.pure_def, Option.some.injEq]
  constructor
  · rintro ⟨logging, logged, after, hasAfter, between, hasBetween, ends, hasEnds, words, hasWords, rfl⟩
    exact ⟨logging, logged, rfl, hasAfter, hasBetween, hasEnds, hasWords⟩
  · rintro ⟨logging, logged, level, hasAfter, hasBetween, hasEnds, hasWords⟩
    exact ⟨logging, logged, _, hasAfter, _, hasBetween, _, hasEnds, _, hasWords, by rw [← level]⟩

/-- A patch comes from a candidate all of whose values are readable, and holds what they say. -/
theorem content?_of_ofValue? {candidate : Value} {patch : Patch} (found : ofValue? candidate = some patch)
    (setting : Setting) :
    patch.content? setting = (setting.stated? candidate).bind (read? setting) ∧
      ∀ value, setting.stated? candidate = some value → ∃ content, read? setting value = some content := by
  cases candidate with
  | object fields =>
      obtain ⟨logging, logged, level, after, between, ends, words⟩ := ofValue?_eq_some_iff.mp found
      cases setting with
      | afterDefinition => exact member?_eq_some_iff.mp after
      | betweenDefinitions => exact member?_eq_some_iff.mp between
      | afterDefinitions => exact member?_eq_some_iff.mp ends
      | discarded =>
          obtain ⟨listed, readable⟩ := member?_eq_some_iff.mp words
          have normalized := congrArg (·.map fun entries => normalizeWords (.ofList entries)) listed
          refine ⟨normalized.trans Option.map_bind, fun value stated => ?_⟩
          obtain ⟨entries, read⟩ := readable value stated
          exact ⟨_, Option.map_eq_some_iff.mpr ⟨entries, read, rfl⟩⟩
      | level =>
          obtain ⟨rfl, readable⟩ := member?_eq_some_iff.mp logged
          simp only [content?, Setting.stated?]
          cases member : (Value.object fields).stated? "logging" with
          | none =>
              rw [member] at level
              exact ⟨level, fun value stated => by simp at stated⟩
          | some inner =>
              obtain ⟨found, read⟩ := readable inner member
              obtain ⟨_, named⟩ := loggedLevel?_eq_some_iff.mp read
              rw [member, Option.bind_some, read] at level
              obtain ⟨said, levels⟩ := member?_eq_some_iff.mp named
              exact ⟨level.trans said, levels⟩
  | _ => simp [ofValue?] at found

theorem wellFormed_of_ofValue? {candidate : Value} {patch : Patch}
    (found : ofValue? candidate = some patch) : Setting.WellFormed candidate where
  object := by
    cases candidate with
    | object fields => exact ⟨fields, rfl⟩
    | _ => simp [ofValue?] at found
  logging := by
    intro value stated
    cases candidate with
    | object fields =>
        obtain ⟨logging, logged, _⟩ := ofValue?_eq_some_iff.mp found
        obtain ⟨level, read⟩ := (member?_eq_some_iff.mp logged).2 value stated
        exact (loggedLevel?_eq_some_iff.mp read).1
    | _ => simp [ofValue?] at found
  typed := by
    intro setting value stated
    obtain ⟨content, read⟩ := (content?_of_ofValue? found setting).2 value stated
    exact ⟨content, read?_eq_some_iff.mp read⟩

theorem member?_exists {α : Type} {read : Value → Option α} {key : String} {payload : Value}
    (readable : ∀ value, payload.stated? key = some value → ∃ content, read value = some content) :
    ∃ found, member? read key payload = some found :=
  ⟨_, member?_eq_some_iff.mpr ⟨rfl, readable⟩⟩

theorem ofValue?_of_wellFormed {candidate : Value} (wellFormed : Setting.WellFormed candidate) :
    ∃ patch, ofValue? candidate = some patch := by
  obtain ⟨fields, rfl⟩ := wellFormed.object
  have readable : ∀ (setting : Setting) value, setting.stated? (.object fields) = some value →
      ∃ content, read? setting value = some content := fun setting value stated => by
    obtain ⟨content, written⟩ := wellFormed.typed setting value stated
    exact ⟨content, read?_eq_some_iff.mpr written⟩
  obtain ⟨after, hasAfter⟩ := member?_exists (readable .afterDefinition)
  obtain ⟨between, hasBetween⟩ := member?_exists (readable .betweenDefinitions)
  obtain ⟨ends, hasEnds⟩ := member?_exists (readable .afterDefinitions)
  obtain ⟨words, hasWords⟩ := member?_exists fun value stated => by
    obtain ⟨content, read⟩ := readable .discarded value stated
    obtain ⟨entries, texts, _⟩ := Option.map_eq_some_iff.mp read
    exact ⟨entries, texts⟩
  obtain ⟨logging, logged⟩ := member?_exists fun value stated => by
    have levels : ∀ inner, value.stated? "level" = some inner →
        ∃ content, read? .level inner = some content := fun inner inside =>
      readable .level inner (Option.bind_eq_some_iff.mpr ⟨value, stated, inside⟩)
    obtain ⟨level, named⟩ := member?_exists levels
    exact ⟨level, loggedLevel?_eq_some_iff.mpr ⟨wellFormed.logging value stated, named⟩⟩
  exact ⟨⟨after, between, ends, words, logging.join⟩, ofValue?_eq_some_iff.mpr
    ⟨logging, logged, rfl, hasAfter, hasBetween, hasEnds, hasWords⟩⟩

theorem ofValue?_of_malformed {candidate : Value} (malformed : ¬ Setting.WellFormed candidate) :
    ofValue? candidate = none :=
  Option.eq_none_iff_forall_ne_some.mpr fun _ found => malformed (wellFormed_of_ofValue? found)

theorem gives_iff {candidate : Value} {patch : Patch} (found : ofValue? candidate = some patch)
    {setting : Setting} {content : setting.Content} :
    setting.Gives candidate content ↔ patch.content? setting = some content := by
  rw [(content?_of_ofValue? found setting).1, Option.bind_eq_some_iff]
  simp only [Setting.Gives, wellFormed_of_ofValue? found, true_and, read?_eq_some_iff]

end Patch

/-- One candidate: a setting is what the candidate says, or as before. -/
theorem of_applyCandidate {settings : Settings} {log : Log} {candidate : Value} {setting : Setting}
    {content : setting.Content} :
    setting.of (applyCandidate (settings, log) candidate).1.normalize = content ↔
      setting.Gives candidate content ∨
        (∀ other, ¬ setting.Gives candidate other) ∧ setting.of settings.normalize = content := by
  unfold applyCandidate
  cases found : Patch.ofValue? candidate with
  | none =>
      have silent : ∀ other, ¬ setting.Gives candidate other := fun other gives => by
        obtain ⟨patch, read⟩ := Patch.ofValue?_of_wellFormed gives.1
        rw [found] at read
        contradiction
      simp [silent]
  | some patch =>
      simp only [Patch.of_normalize_apply, Patch.gives_iff found]
      cases patch.content? setting <;> simp

theorem of_foldl_applyCandidate {state : Settings × Log} {candidates : List Value} {setting : Setting}
    {content : setting.Content} :
    setting.of (candidates.foldl applyCandidate state).1.normalize = content ↔
      setting.LastGiven candidates content ∨
        setting.Ungiven candidates ∧ setting.of state.1.normalize = content := by
  induction candidates generalizing state with
  | nil => simp [Setting.not_lastGiven_nil, Setting.Ungiven]
  | cons candidate candidates ih =>
      rw [List.foldl_cons, ih, of_applyCandidate, Setting.lastGiven_cons, Setting.ungiven_cons]
      grind

theorem foldl_applyCandidate_congr {state other : Settings × Log}
    (same : state.1.normalize = other.1.normalize) (candidates : List Value) :
    (candidates.foldl applyCandidate state).1.normalize =
      (candidates.foldl applyCandidate other).1.normalize := by
  refine Setting.settings_ext fun setting => of_foldl_applyCandidate.mpr ?_
  rw [same]
  exact of_foldl_applyCandidate.mp rfl

theorem foldl_applyCandidate_of_malformed {candidates : List Value} {state : Settings × Log}
    (malformed : ∀ candidate ∈ candidates, ¬ Setting.WellFormed candidate) :
    (candidates.foldl applyCandidate state).1 = state.1 := by
  induction candidates generalizing state with
  | nil => rfl
  | cons candidate candidates ih =>
      obtain ⟨first, others⟩ := List.forall_mem_cons.mp malformed
      rw [List.foldl_cons, ih others, applyCandidate, Patch.ofValue?_of_malformed first]

theorem merge_fst (settings : Settings) (payload : Value) (log : Log) :
    (settings.merge payload log).1 =
      ((candidates payload).foldl applyCandidate (settings, log)).1.normalize :=
  rfl

theorem normalize_merge (settings : Settings) (payload : Value) (log : Log) :
    (settings.merge payload log).1.normalize = (settings.merge payload log).1 :=
  normalize_idempotent _

theorem merge_of_malformed {settings : Settings} {payload : Value} (log : Log)
    (malformed : ∀ candidate ∈ candidates payload, ¬ Setting.WellFormed candidate) :
    (settings.merge payload log).1 = settings.normalize := by
  rw [merge_fst, foldl_applyCandidate_of_malformed malformed]

theorem merge_again (settings : Settings) (payload : Value) (log later : Log) :
    ((settings.merge payload log).1.merge payload later).1 = (settings.merge payload log).1 := by
  refine Setting.settings_ext fun setting => ?_
  rw [merge_fst _ _ later]
  refine of_foldl_applyCandidate.mpr ?_
  rw [normalize_merge]
  have once : setting.LastGiven (candidates payload) (setting.of (settings.merge payload log).1) ∨ _ :=
    of_foldl_applyCandidate.mp rfl
  exact once.imp_right fun ungiven => ⟨ungiven.1, rfl⟩

/-- Payloads merged into the defaults, one after the other. -/
def layered (payloads : List Value) (log : Log) : Settings × Log :=
  payloads.foldl (fun state payload => state.1.merge payload state.2) (default, log)

theorem layered_concat (payloads : List Value) (payload : Value) (log : Log) :
    layered (payloads ++ [payload]) log =
      (layered payloads log).1.merge payload (layered payloads log).2 := by
  simp [layered]

theorem normalize_default : default.normalize = default := by
  decide +kernel

theorem normalize_layered (payloads : List Value) (log : Log) :
    (layered payloads log).1.normalize = (layered payloads log).1 := by
  induction payloads using List.reverseRecOn with
  | nil => exact normalize_default
  | append_singleton payloads payload =>
      rw [layered_concat]
      exact normalize_merge _ _ _

/-- That the settings are normalised after every payload does not show in the end. -/
theorem layered_eq_foldl (payloads : List Value) (log : Log) :
    (layered payloads log).1 =
      ((payloads.flatMap candidates).foldl applyCandidate (default, log)).1.normalize := by
  induction payloads using List.reverseRecOn with
  | nil => exact normalize_default.symm
  | append_singleton payloads payload ih =>
      rw [layered_concat, merge_fst, List.flatMap_append, List.foldl_append, List.flatMap_singleton]
      refine foldl_applyCandidate_congr ?_ _
      rw [ih]
      exact normalize_idempotent _

/-- Both are one value, or objects with the same members under the keys. -/
inductive AgreeOn (keys : List String) : Value → Value → Prop
  | same (value : Value) : AgreeOn keys value value
  | objects {left right : List (String × Value)}
      (members : ∀ key ∈ keys, left.lookup key = right.lookup key) :
      AgreeOn keys (.object left) (.object right)

/-- The candidates differ in unknown keys only. -/
structure CandidatesAgree (left right : Value) : Prop where
  members : AgreeOn
    ["textAfterDef", "textBetweenMultipleDefs", "textAfterMultipleDefs", "discardedSegments"] left right
  logging : Option.Rel (AgreeOn ["level"]) (left.field? "logging") (right.field? "logging")

/-- The payloads differ in unknown keys only, also in their sections. -/
structure PayloadsAgree (left right : Value) : Prop where
  whole : CandidatesAgree left right
  inSection : Option.Rel CandidatesAgree (left.field? sectionKey) (right.field? sectionKey)

theorem AgreeOn.field? {keys : List String} {left right : Value} (agree : AgreeOn keys left right)
    {key : String} (known : key ∈ keys) : left.field? key = right.field? key := by
  cases agree with
  | same => rfl
  | objects members => exact members key known

theorem member?_congr {α : Type} {key : String} {left right : Value} (read : Value → Option α)
    (same : left.field? key = right.field? key) :
    Patch.member? read key left = Patch.member? read key right := by
  rw [Patch.member?, Patch.member?, same]

theorem member?_logging_congr {left right : Value}
    (agree : Option.Rel (AgreeOn ["level"]) (left.field? "logging") (right.field? "logging")) :
    Patch.member? Patch.loggedLevel? "logging" left =
      Patch.member? Patch.loggedLevel? "logging" right := by
  unfold Patch.member?
  generalize left.field? "logging" = first at agree
  generalize right.field? "logging" = second at agree
  cases agree with
  | none => rfl
  | some related =>
      cases related with
      | same => rfl
      | objects members =>
          have levels : Patch.loggedLevel? (.object _) = Patch.loggedLevel? (.object _) :=
            member?_congr Patch.level? (AgreeOn.objects members |>.field? (List.mem_singleton.mpr rfl))
          exact congrArg (Option.map some) levels

theorem CandidatesAgree.ofValue? {left right : Value} (agree : CandidatesAgree left right) :
    Patch.ofValue? left = Patch.ofValue? right := by
  have logging := member?_logging_congr agree.logging
  have known : ∀ {α : Type} (read : Value → Option α), ∀ key ∈
      ["textAfterDef", "textBetweenMultipleDefs", "textAfterMultipleDefs", "discardedSegments"],
      Patch.member? read key left = Patch.member? read key right :=
    fun read key listed => member?_congr read (agree.members.field? listed)
  have after := known Patch.text? "textAfterDef" (by simp)
  have between := known Patch.text? "textBetweenMultipleDefs" (by simp)
  have ends := known Patch.text? "textAfterMultipleDefs" (by simp)
  have words := known Patch.texts? "discardedSegments" (by simp)
  cases agree.members with
  | same => rfl
  | objects => simp only [Patch.ofValue?, logging, after, between, ends, words]

theorem CandidatesAgree.applyCandidate {left right : Value} (agree : CandidatesAgree left right)
    (state : Settings × Log) :
    Settings.applyCandidate state left = Settings.applyCandidate state right := by
  unfold Settings.applyCandidate
  rw [agree.ofValue?]

theorem PayloadsAgree.merge {left right : Value} (agree : PayloadsAgree left right)
    (settings : Settings) (log : Log) : settings.merge left log = settings.merge right log := by
  have folded : (candidates left).foldl Settings.applyCandidate (settings, log) =
      (candidates right).foldl Settings.applyCandidate (settings, log) := by
    have sections := agree.inSection
    simp only [candidates, List.foldl_cons, agree.whole.applyCandidate]
    generalize left.field? sectionKey = first at sections
    generalize right.field? sectionKey = second at sections
    cases sections with
    | none => rfl
    | some related => exact related.applyCandidate _
  unfold Settings.merge
  rw [folded]

/-- The last candidate that is well formed and gives a setting decides it; where none does, the
setting keeps its default. A malformed candidate changes nothing, keys that are not known do not
matter, and a payload has no effect the second time. -/
theorem layered_lastGiven (payloads : List Value) (log : Log) :
    (∀ (setting : Setting) content, setting.of (layered payloads log).1 = content ↔
      setting.LastGiven (payloads.flatMap candidates) content ∨
        setting.Ungiven (payloads.flatMap candidates) ∧ setting.of default = content) ∧
    (∀ candidate, ¬ Setting.WellFormed candidate → ∀ settings,
      (applyCandidate (settings, log) candidate).1 = settings) ∧
    (∀ left right, PayloadsAgree left right → ∀ settings,
      Settings.merge settings left log = Settings.merge settings right log) ∧
    (∀ payload, (layered (payloads ++ [payload, payload]) log).1 =
      (layered (payloads ++ [payload]) log).1) ∧
    (∀ payload, (∀ candidate ∈ candidates payload, ¬ Setting.WellFormed candidate) →
      (layered (payloads ++ [payload]) log).1 = (layered payloads log).1) := by
  refine ⟨fun setting content => ?_, fun candidate malformed settings => ?_,
    fun left right agree settings => agree.merge settings log, fun payload => ?_,
    fun payload malformed => ?_⟩
  · rw [layered_eq_foldl, of_foldl_applyCandidate, normalize_default]
  · rw [applyCandidate, Patch.ofValue?_of_malformed malformed]
  · rw [List.append_cons, layered_concat, layered_concat]
    exact merge_again _ _ _ _
  · rw [layered_concat, merge_of_malformed _ malformed, normalize_layered]

/-- The second payload is malformed but for its section, the third one altogether. -/
theorem layered_lastGiven_section :
    let first : Value := .object [("textAfterDef", .string ";"), ("level", .string "trace")]
    let known : Value := .object [("textAfterDef", .string ";")]
    let second : Value := .object [("textAfterDef", .bool true), (sectionKey, .object
      [("textAfterDef", .null), ("discardedSegments", .array [.string " inline ", .string " "])])]
    let settings := (layered [first, second] []).1
    Setting.LastGiven .afterDefinition ([first, second].flatMap candidates) ";".toList ∧
      Setting.LastGiven .discarded ([first, second].flatMap candidates) (.ofList ["inline".toList]) ∧
      (¬ Setting.WellFormed second ∧ (applyCandidate (settings, []) second).1 = settings) ∧
      (PayloadsAgree first known ∧ settings.merge first [] = settings.merge known []) ∧
      (layered [first, second, second, second] []).1 = (layered [first, second, second] []).1 ∧
      (¬ Setting.WellFormed .null ∧ (layered [first, second, .null] []).1 = settings) := by
  intro first known second settings
  obtain ⟨decided, rejected, unknown, repeated, unchanged⟩ := layered_lastGiven [first, second] []
  have after : settings.style.afterDefinition = ";".toList := by decide +kernel
  have words : settings.style.discarded = .ofList ["inline".toList] := by decide +kernel
  have newAfter : default.style.afterDefinition ≠ ";".toList := by decide +kernel
  have newWords : default.style.discarded ≠ .ofList ["inline".toList] := by decide +kernel
  have malformed : ¬ Setting.WellFormed second := fun wellFormed => by
    obtain ⟨content, written⟩ := wellFormed.typed .afterDefinition (.bool true) rfl
    cases written
  have notObject : ¬ Setting.WellFormed .null := fun wellFormed => by
    obtain ⟨fields, same⟩ := wellFormed.object
    cases same
  have agree : PayloadsAgree first known := ⟨⟨.objects (by simp [List.lookup_cons]), .none⟩, .none⟩
  refine ⟨?_, ?_, ⟨malformed, rejected second malformed settings⟩,
    ⟨agree, unknown first known agree settings⟩, ?_, ⟨notObject, unchanged .null ?_⟩⟩
  · exact ((decided .afterDefinition _).mp after).resolve_right fun none => newAfter none.2
  · exact ((decided .discarded _).mp words).resolve_right fun none => newWords none.2
  · exact repeated second
  · exact fun candidate member => List.mem_singleton.mp member ▸ notObject

end Settings

end OutOfLine
