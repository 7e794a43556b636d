import CellQuery.Prompt.Transcript
import CellQuery.Proofs.Session.Afresh
import CellQuery.Proofs.Text.Words
import Mathlib.Logic.Function.Iterate

/-!
# What earlier lines leave behind

Lines that have been answered leave two things to the lines after them, the options and the selected
keys. The options are those at the beginning, switched over once for each line that says so
(`Options.after`), and the keys are those of the last line that names any (`columnsAfter`). Besides,
every query begins a generation, on which no reply depends (`replies_generation`).
-/

namespace CellQuery

open Text

/-! ### Lines -/

/-- The keys that a line names, if it is one that selects columns. -/
def columnsOf? (line : String) : Option (List String) :=
  (afterStart? "/columns".toList (trim line).toList).map fun rest => words (.ofList rest)

/-- A line that is searched for. -/
structure IsQuery (line : String) : Prop where
  nonempty : trim line ≠ ""
  not_leave : trim line ≠ "/bye"
  not_case : trim line ≠ "/case"
  not_exact : trim line ≠ "/exact"
  not_columns : ¬ "/columns".toList <+: (trim line).toList

theorem columnsOf?_eq_none {line : String} :
    columnsOf? line = none ↔ ¬ "/columns".toList <+: (trim line).toList := by
  rw [columnsOf?, Option.map_eq_none_iff, afterStart?, ← List.isPrefixOf_iff_prefix]
  split <;> simp_all

/-- A line that is another word does not begin with `/columns`. -/
theorem columnsOf?_of_trim {line word : String} (h : trim line = word)
    (hword : ¬ "/columns".toList <+: word.toList) : columnsOf? line = none := by
  rw [columnsOf?_eq_none, h]
  exact hword

namespace Command

/-- What a command makes of the options. -/
def options : Command → Options → Options
  | .toggleCase, o => { o with caseSensitive := !o.caseSensitive }
  | .toggleExact, o => { o with exactMatch := !o.exactMatch }
  | _, o => o

/-- The keys that a command selects, if it selects any. -/
def keys? : Command → Option (List String)
  | .columns keys => some keys
  | _ => none

end Command

/-- The six kinds of lines. -/
inductive Means (line : String) : Command → Prop
  | nothing : trim line = "" → Means line .nothing
  | leave : trim line = "/bye" → Means line .leave
  | toggleCase : trim line = "/case" → Means line .toggleCase
  | toggleExact : trim line = "/exact" → Means line .toggleExact
  | columns {keys : List String} : columnsOf? line = some keys → Means line (.columns keys)
  | search : IsQuery line → Means line (.search (trim line))

theorem means_ofLine (line : String) : Means line (.ofLine line) := by
  unfold Command.ofLine
  dsimp only
  by_cases hempty : (trim line).isEmpty
  · rw [if_pos hempty]
    exact .nothing (String.isEmpty_iff.mp hempty)
  rw [if_neg hempty]
  -- each test excludes the kinds before it, and what passes none of them is a query
  by_cases hleave : trim line = "/bye"
  · rw [if_pos hleave]
    exact .leave hleave
  rw [if_neg hleave]
  by_cases hcase : trim line = "/case"
  · rw [if_pos hcase]
    exact .toggleCase hcase
  rw [if_neg hcase]
  by_cases hexact : trim line = "/exact"
  · rw [if_pos hexact]
    exact .toggleExact hexact
  rw [if_neg hexact]
  cases hrest : afterStart? "/columns".toList (trim line).toList with
  | some rest =>
    refine .columns ?_
    rw [columnsOf?, hrest, Option.map_some]
  | none =>
    have hcolumns : columnsOf? line = none := by rw [columnsOf?, hrest, Option.map_none]
    exact .search ⟨mt String.isEmpty_iff.mpr hempty, hleave, hcase, hexact,
      columnsOf?_eq_none.mp hcolumns⟩

namespace Means

variable {line : String} {c : Command}

theorem columnsOf?_eq (h : Means line c) : columnsOf? line = c.keys? := by
  cases h with
  | nothing ht => exact columnsOf?_of_trim ht (by decide)
  | leave ht => exact columnsOf?_of_trim ht (by decide)
  | toggleCase ht => exact columnsOf?_of_trim ht (by decide)
  | toggleExact ht => exact columnsOf?_of_trim ht (by decide)
  | columns hkeys => exact hkeys
  | search hquery => exact columnsOf?_eq_none.mpr hquery.not_columns

theorem ofLine_eq (h : Means line c) : Command.ofLine line = c := by
  unfold Command.ofLine
  cases h with
  | nothing ht => simp [ht]
  | leave ht => simp [ht]
  | toggleCase ht => simp [ht]
  | toggleExact ht => simp [ht]
  | columns hkeys =>
    -- a line that begins with `/columns` is none of the shorter commands
    have hne : ∀ word : String, ¬ "/columns".toList <+: word.toList → trim line ≠ word := by
      intro word hword ht
      rw [columnsOf?_of_trim ht hword] at hkeys
      cases hkeys
    have hempty := hne "" (by decide)
    obtain ⟨rest, hrest, rfl⟩ := Option.map_eq_some_iff.mp hkeys
    simp only [String.isEmpty_iff, hempty, hne "/bye" (by decide), hne "/case" (by decide),
      hne "/exact" (by decide), if_false, hrest]
  | search hquery =>
    have hrest : afterStart? "/columns".toList (trim line).toList = none :=
      Option.map_eq_none_iff.mp (columnsOf?_eq_none.mpr hquery.not_columns)
    simp only [String.isEmpty_iff, hquery.nonempty, hquery.not_leave, hquery.not_case,
      hquery.not_exact, if_false, hrest]

end Means

theorem ofLine_eq_iff {line : String} {c : Command} : Command.ofLine line = c ↔ Means line c := by
  constructor
  · intro h
    rw [← h]
    exact means_ofLine line
  · exact Means.ofLine_eq

theorem ofLine_eq_toggleCase_iff {line : String} :
    Command.ofLine line = .toggleCase ↔ trim line = "/case" := by
  rw [ofLine_eq_iff]
  constructor
  · intro h
    cases h with | toggleCase ht => exact ht
  · exact .toggleCase

theorem ofLine_eq_toggleExact_iff {line : String} :
    Command.ofLine line = .toggleExact ↔ trim line = "/exact" := by
  rw [ofLine_eq_iff]
  constructor
  · intro h
    cases h with | toggleExact ht => exact ht
  · exact .toggleExact

theorem ofLine_eq_leave_iff {line : String} :
    Command.ofLine line = .leave ↔ trim line = "/bye" := by
  rw [ofLine_eq_iff]
  constructor
  · intro h
    cases h with | leave ht => exact ht
  · exact .leave

/-! ### Settings -/

/-- The options that `o` has become after some lines. -/
def Options.after (o : Options) (lines : List String) : Options where
  caseSensitive := not^[lines.countP (trim · = "/case")] o.caseSensitive
  exactMatch := not^[lines.countP (trim · = "/exact")] o.exactMatch

/-- The selected keys after some lines. -/
def columnsAfter (keys : List String) (lines : List String) : List String :=
  (lines.filterMap columnsOf?).getLast?.getD keys

theorem Options.after_snoc (o : Options) (lines : List String) (line : String) :
    o.after (lines ++ [line]) = (Command.ofLine line).options (o.after lines) := by
  have hcase : _ ↔ trim line = "/case" := ofLine_eq_toggleCase_iff
  have hexact : _ ↔ trim line = "/exact" := ofLine_eq_toggleExact_iff
  -- a line counts in either count exactly if it is the command that switches the option
  simp only [after, List.countP_append, List.countP_singleton, ← hcase, ← hexact]
  cases hc : Command.ofLine line <;>
    simp [Command.options, Function.iterate_succ_apply']

theorem columnsAfter_snoc (keys lines : List String) (line : String) :
    columnsAfter keys (lines ++ [line]) =
      (Command.ofLine line).keys?.getD (columnsAfter keys lines) := by
  rw [columnsAfter, List.filterMap_append, ← (means_ofLine line).columnsOf?_eq]
  cases h : columnsOf? line with
  | none => simp [h, columnsAfter]
  | some keys' => simp [h]

/-! ### Sessions -/

namespace Session

/-- A session as the options `o` and the keys `keys` set it up. -/
def configured (s : Session) (o : Options) (keys : List String) : Session :=
  (s.setOptions o).select keys

/-- A session as it is in another generation. -/
def inGeneration (s : Session) (g : Generation) : Session :=
  { s with generation := g }

/-- The session after some lines. -/
def afterLines (s : Session) (lines : List String) : Session :=
  lines.foldl (fun s line => (s.perform (.ofLine line)).2) s

theorem afterLines_snoc (s : Session) (lines : List String) (line : String) :
    s.afterLines (lines ++ [line]) = ((s.afterLines lines).perform (.ofLine line)).2 := by
  rw [afterLines, List.foldl_append]
  rfl

theorem perform_search_of_ok {s : Session} {query : String} {outcome : Outcome}
    (h : s.answer query = .ok outcome) :
    s.perform (.search query) = (⟨outcome.report s.headers s.style, none⟩, s.bump.2) := by
  have hsearch : s.search query = (.ok outcome, s.bump.2) :=
    Prod.ext ((search_eq_answer s query).trans h) rfl
  rw [perform, hsearch]
  rfl

theorem perform_search_of_error {s : Session} {query : String} {e : QueryError}
    (h : s.answer query = .error e) :
    s.perform (.search query) = (⟨"", some ("Failed to search: " ++ e.message)⟩, s.bump.2) := by
  have hsearch : s.search query = (.error e, s.bump.2) :=
    Prod.ext ((search_eq_answer s query).trans h) rfl
  rw [perform, hsearch]

/-- A query leaves nothing behind but its generation, whether it has an answer or not. -/
theorem perform_search_snd (s : Session) (query : String) :
    (s.perform (.search query)).2 = s.bump.2 := by
  cases h : s.answer query with
  | ok outcome => rw [perform_search_of_ok h]
  | error e => rw [perform_search_of_error h]

/-- No line has influence on how outcomes are shown. -/
theorem shown_afterLines (s : Session) (lines : List String) :
    (s.afterLines lines).headers = s.headers ∧ (s.afterLines lines).style = s.style := by
  -- from the end, as a session after lines is one command away from the lines before
  induction lines using List.reverseRecOn with
  | nil => exact ⟨rfl, rfl⟩
  | append_singleton lines line ih =>
    rw [afterLines_snoc]
    cases Command.ofLine line with
    | search query =>
      rw [perform_search_snd]
      exact ih
    | _ => exact ih

/-- Up to the generation, the session after a command is set up by the command's effects. -/
theorem perform_configured (s : Session) (o : Options) (keys : List String) (g : Generation)
    (c : Command) : ∃ g', (((s.configured o keys).inGeneration g).perform c).2 =
      (s.configured (c.options o) (c.keys?.getD keys)).inGeneration g' := by
  cases c with
  | search query =>
    rw [perform_search_snd]
    exact ⟨_, rfl⟩
  | _ => exact ⟨g, rfl⟩

/-- Up to the generation, lines leave behind the options and the keys that they come to. -/
theorem afterLines_configured (s : Session) (o : Options) (keys lines : List String) :
    ∃ g, (s.configured o keys).afterLines lines =
      (s.configured (o.after lines) (columnsAfter keys lines)).inGeneration g := by
  induction lines using List.reverseRecOn with
  | nil => exact ⟨_, rfl⟩
  | append_singleton lines line ih =>
    obtain ⟨g, hg⟩ := ih
    rw [afterLines_snoc, hg, Options.after_snoc, columnsAfter_snoc]
    exact perform_configured _ _ _ _ _

/-! ### Replies -/

/-- The generation has no influence on a reply, and the generation is all it has influence on. -/
theorem perform_generation (s : Session) (g : Generation) (c : Command) :
    ∃ g', (s.inGeneration g).perform c = ((s.perform c).1, (s.perform c).2.inGeneration g') := by
  cases c with
  | search query =>
    cases h : s.answer query with
    | ok outcome =>
      have h' : (s.inGeneration g).answer query = .ok outcome := h
      rw [perform_search_of_ok h, perform_search_of_ok h']
      exact ⟨_, rfl⟩
    | error e =>
      have h' : (s.inGeneration g).answer query = .error e := h
      rw [perform_search_of_error h, perform_search_of_error h']
      exact ⟨_, rfl⟩
  | _ => exact ⟨g, rfl⟩

theorem replies_generation (s : Session) (g : Generation) (lines : List String) :
    (s.inGeneration g).replies lines = s.replies lines := by
  induction lines generalizing s g with
  | nil => rfl
  | cons line rest ih =>
    obtain ⟨g', hg'⟩ := perform_generation s g (.ofLine line)
    unfold replies
    -- a line that ends the input ends both, and any other one is replied to alike
    cases hc : Command.ofLine line <;> simp only [hc] at hg' <;> simp only [hg', ih]

variable {before : List String}

theorem replies_cons {s : Session} {line : String} (h : trim line ≠ "/bye") (rest : List String) :
    s.replies (line :: rest) =
      (s.perform (.ofLine line)).1 :: (s.perform (.ofLine line)).2.replies rest := by
  have hne := mt ofLine_eq_leave_iff.mp h
  rw [replies]
  cases hc : Command.ofLine line <;> simp_all

theorem replies_append (s : Session) (h : ∀ l ∈ before, trim l ≠ "/bye") (rest : List String) :
    s.replies (before ++ rest) = s.replies before ++ (s.afterLines before).replies rest := by
  induction before generalizing s with
  | nil => rfl
  | cons line before ih =>
    obtain ⟨hline, hbefore⟩ := List.forall_mem_cons.mp h
    rw [List.cons_append, replies_cons hline, replies_cons hline, ih _ hbefore]
    rfl

theorem replies_snoc (s : Session) (h : ∀ l ∈ before, trim l ≠ "/bye") {line : String}
    (hline : trim line ≠ "/bye") :
    s.replies (before ++ [line]) =
      s.replies before ++ [((s.afterLines before).perform (.ofLine line)).1] := by
  rw [replies_append s h, replies_cons hline]
  rfl

/-- Nothing is replied from the line on that says to leave. -/
theorem replies_append_leave (s : Session) (h : ∀ l ∈ before, trim l ≠ "/bye") {line : String}
    (hline : trim line = "/bye") (rest : List String) :
    s.replies (before ++ line :: rest) = s.replies before := by
  have hleave : (s.afterLines before).replies (line :: rest) = [] := by
    rw [replies, ofLine_eq_leave_iff.mpr hline]
  rw [replies_append s h, hleave, List.append_nil]

theorem length_replies (s : Session) (h : ∀ l ∈ before, trim l ≠ "/bye") :
    (s.replies before).length = before.length := by
  induction before generalizing s with
  | nil => rfl
  | cons line before ih =>
    obtain ⟨hline, hbefore⟩ := List.forall_mem_cons.mp h
    rw [replies_cons hline, List.length_cons, List.length_cons, ih _ hbefore]

end Session
end CellQuery
