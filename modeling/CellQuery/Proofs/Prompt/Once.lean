import CellQuery.Proofs.Highlight.Credit
import CellQuery.Proofs.Prompt.CommandLine
import CellQuery.Proofs.Prompt.Settings

/-!
# The prompt and the single query

A line that is searched for at the prompt gets the answer that the program gives to it as its only
query, on a command line that sets the options and the columns as the lines before have left them.
For a session is the one that such a command line starts, up to its generation
(`Session.afterLines_configured`), and a reply does not depend on the generation.
-/

namespace CellQuery

open Text

/-! ### Runs -/

/-- A run that gives `replies` and then ends. -/
def Session.transcript (s : Session) (replies : List Reply) : Transcript where
  exitCode := 0
  printed := s.greeting ++ String.join (replies.map (promptSign ++ ·.printed)) ++ promptSign
  complaints := replies.filterMap Reply.complaint

/-- The run of a single query that corresponds to a reply. -/
inductive Reply.AsRun : Reply → Transcript → Prop
  | answered (text : String) : AsRun ⟨text, none⟩ ⟨0, text, []⟩
  | failed (message : String) :
    AsRun ⟨"", some ("Failed to search: " ++ message)⟩ ⟨1, "", ["Error: " ++ message]⟩

section Start

variable {readText : String → Option String} {args : List String} {a : Arguments} {s : Session}

/-- The arguments set up the loaded session, each in its own way. -/
theorem startSession_eq (readText : String → Option String) (a : Arguments) :
    Id.run (startSession (pure ∘ readText) a) =
      (Id.run (loadSession (pure ∘ readText) a.path a.compare)).map fun s =>
        (s.setStyle (if a.ansi then .terminal else .page)).configured a.options a.columns := rfl

/-- What another command line starts that differs in options, columns and query only. -/
theorem exists_startSession_eq_ok (h : Id.run (startSession (pure ∘ readText) a) = .ok s) :
    ∃ base : Session, s = base.configured a.options a.columns ∧ ∀ options columns query,
      Id.run (startSession (pure ∘ readText)
        { a with options := options, columns := columns, query := query }) =
        .ok (base.configured options columns) := by
  rw [startSession_eq] at h
  cases hload : Id.run (loadSession (pure ∘ readText) a.path a.compare) with
  | error e =>
    rw [hload] at h
    cases h
  | ok loaded =>
    rw [hload] at h
    refine ⟨loaded.setStyle (if a.ansi then .terminal else .page), (Except.ok.inj h).symm, ?_⟩
    intro options columns query
    rw [startSession_eq, hload]
    rfl

theorem ofRun_prompt (hargs : Arguments.parse args = .ok a) (hquery : a.query = none)
    (hstart : Id.run (startSession (pure ∘ readText) a) = .ok s) (input : String) :
    Transcript.ofRun readText args input =
      s.transcript (s.replies ((linesOf input.toList).map .ofList)) := by
  rw [Transcript.ofRun, hargs]
  dsimp only
  rw [Transcript.ofArguments, hstart]
  dsimp only
  rw [hquery]
  rfl

theorem ofRun_once (hargs : Arguments.parse args = .ok a) {query : String}
    (hquery : a.query = some query)
    (hstart : Id.run (startSession (pure ∘ readText) a) = .ok s) (input : String) :
    Transcript.ofRun readText args input = s.answerOnce query := by
  rw [Transcript.ofRun, hargs]
  dsimp only
  rw [Transcript.ofArguments, hstart]
  dsimp only
  rw [hquery]

end Start

/-! ### Replies -/

namespace Session

theorem answer_trim (s : Session) (query : String) : s.answer (trim query) = s.answer query := by
  unfold answer
  rw [trim_trim]

theorem asRun_perform (s : Session) {query line : String} (h : trim query = trim line)
    (g : Generation) :
    ((s.inGeneration g).perform (.search (trim line))).1.AsRun
      (s.answerOnce query) := by
  -- the line is trimmed before it is searched for and once more in the search
  have hanswer : s.answer query = s.answer (trim line) := by
    rw [← h, answer_trim]
  have hsearch : (s.search query).1 = s.answer (trim line) := (s.search_eq_answer query).trans hanswer
  unfold answerOnce
  cases hresult : s.answer (trim line) with
  | ok outcome =>
    have hperform := perform_search_of_ok (s := s.inGeneration g) hresult
    rw [hsearch, hresult, hperform]
    exact .answered _
  | error e =>
    have hperform := perform_search_of_error (s := s.inGeneration g) hresult
    rw [hsearch, hresult, hperform]
    exact .failed _

end Session

/-! ### Keys -/

theorem Text.subset_of_mem_wordsOf {cs word : List Char} (h : word ∈ wordsOf cs) : word ⊆ cs := by
  induction cs using wordsOf.induct with
  | case1 cs hdrop =>
    rw [wordsOf, hdrop] at h
    cases h
  | case2 cs c rest hdrop ih =>
    have hsub : c :: rest ⊆ cs := hdrop ▸ (List.dropWhile_sublist isBlank).subset
    rw [wordsOf, hdrop] at h
    rcases List.mem_cons.mp h with rfl | h
    · have htake : rest.takeWhile (!isBlank ·) ⊆ rest := (List.takeWhile_sublist _).subset
      exact List.Subset.trans (List.cons_subset_cons c htake) hsub
    · have hrest : rest.dropWhile (!isBlank ·) ⊆ rest := (List.dropWhile_sublist _).subset
      exact List.Subset.trans (ih h) (List.Subset.trans hrest (List.cons_subset.mp hsub).2)

theorem subset_of_columnsOf? {line : String} {keys : List String} (h : columnsOf? line = some keys) :
    ∀ key ∈ keys, key.toList ⊆ line.toList := by
  intro key hkey
  obtain ⟨rest, hrest, rfl⟩ := Option.map_eq_some_iff.mp h
  obtain ⟨word, hword, rfl⟩ := List.mem_map.mp hkey
  rw [String.toList_ofList] at hword ⊢
  have hsub : rest ⊆ trimChars line.toList := by
    rw [afterStart?, toList_trim] at hrest
    split at hrest
    · obtain rfl := Option.some.inj hrest
      exact List.drop_subset _ _
    · cases hrest
  have htrim := trimChars_infix line.toList
  exact List.Subset.trans (subset_of_mem_wordsOf hword) (List.Subset.trans hsub htrim.subset)

/-- A key that is selected was selected at the beginning, or a line names it. -/
theorem exists_columnsOf?_of_mem {keys lines : List String} {key : String}
    (h : key ∈ columnsAfter keys lines) :
    key ∈ keys ∨ ∃ line ∈ lines, ∃ named, columnsOf? line = some named ∧ key ∈ named := by
  unfold columnsAfter at h
  cases hlast : (lines.filterMap columnsOf?).getLast? with
  | none =>
    rw [hlast] at h
    exact .inl h
  | some named =>
    rw [hlast] at h
    obtain ⟨line, hline, hnamed⟩ := List.mem_filterMap.mp (List.mem_of_getLast? hlast)
    exact .inr ⟨line, hline, named, hnamed, h⟩

theorem mem_columnsAfter {keys lines : List String} {key : String}
    (h : key ∈ columnsAfter keys lines) :
    key ∈ keys ∨ ∃ line ∈ lines, key.toList ⊆ line.toList := by
  rcases exists_columnsOf?_of_mem h with hkey | ⟨line, hline, named, hnamed, hkey⟩
  · exact .inl hkey
  · exact .inr ⟨line, hline, subset_of_columnsOf? hnamed key hkey⟩

/-! ### Command lines -/

namespace Arguments

/-- The arguments with which `query` is searched for as it is after some lines. -/
def once (a : Arguments) (lines : List String) (query : String) : Arguments :=
  { a with
    options := a.options.after lines
    columns := columnsAfter a.columns lines
    query := some query }

theorem exists_parse_once {args lines : List String} {a : Arguments} (h : parse args = .ok a)
    (query : String) : ∃ args', parse args' = .ok (a.once lines query) ∧
      ((∀ text ∈ query :: args ++ lines, Passable text) → ∀ word ∈ args', Passable word) := by
  obtain ⟨hpath, hcompare, htexts⟩ := sound_of_parse h
  refine ⟨(a.once lines query).words, parse_words hpath hcompare, fun hpass => ?_⟩
  simp only [List.forall_mem_append, List.forall_mem_cons] at hpass
  obtain ⟨⟨hquery, hargs⟩, hlines⟩ := hpass
  have hold : ∀ t ∈ a.texts, Passable t := by
    intro t ht
    obtain ⟨arg, harg, hsuffix⟩ := htexts t ht
    exact passable_of_subset (hargs arg harg) hsuffix.subset
  refine passable_words fun t ht => ?_
  -- the texts of the new arguments are old ones, keys out of some line, or the query
  simp only [texts, once, List.mem_append, List.mem_cons, Option.mem_toList] at ht
  rcases ht with ((rfl | hcompare) | hcolumn) | hquery'
  · exact hold _ List.mem_cons_self
  · exact hold t (by simp [texts, hcompare])
  · rcases mem_columnsAfter hcolumn with hkey | ⟨line, hline, hsub⟩
    · exact hold t (by simp [texts, hkey])
    · exact passable_of_subset (hlines line hline) hsub
  · obtain rfl := Option.some.inj hquery'
    exact hquery

end Arguments

/-- **The prompt answers as a single query does.** A line that is searched for at the prompt, before
any line that says to leave, has a reply of its own. It is the answer of every run on the same files
whose arguments differ only in the query, which is the line, in the options, switched over once for
each line that said so before, and in the columns, which are those of the last line that named any;
and there is a command line with such arguments. The other replies are the ones that are given
without the line. -/
theorem prompt_answers_as_once {readText : String → Option String} {args : List String}
    {a : Arguments} {s : Session} (hargs : Arguments.parse args = .ok a) (hquery : a.query = none)
    (hstart : Id.run (startSession (pure ∘ readText) a) = .ok s) {input : String}
    {before after : List String} {line : String}
    (hlines : (linesOf input.toList).map .ofList = before ++ line :: after)
    (hbefore : ∀ l ∈ before, trim l ≠ "/bye") (hline : IsQuery line) :
    ∃ earlier reply later, earlier.length = before.length ∧
      Transcript.ofRun readText args input = s.transcript (earlier ++ reply :: later) ∧
      (∀ input', (linesOf input'.toList).map .ofList = before ++ after →
        Transcript.ofRun readText args input' = s.transcript (earlier ++ later)) ∧
      ∀ query, trim query = trim line →
        (∃ args', Arguments.parse args' = .ok (a.once before query) ∧
          ((∀ text ∈ query :: args ++ before, Arguments.Passable text) →
            ∀ word ∈ args', Arguments.Passable word)) ∧
        ∀ args' input', Arguments.parse args' = .ok (a.once before query) →
          reply.AsRun (Transcript.ofRun readText args' input') := by
  obtain ⟨base, rfl, honce⟩ := exists_startSession_eq_ok hstart
  obtain ⟨g, hg⟩ := base.afterLines_configured a.options a.columns before
  set s := base.configured a.options a.columns
  set t := base.configured (a.options.after before) (columnsAfter a.columns before)
  have hmeans : Command.ofLine line = .search (trim line) := ofLine_eq_iff.mpr (.search hline)
  -- a search moves the generation only, and replies do not depend on that
  have hleft : s.replies (before ++ line :: after) = s.replies before ++
      ((s.afterLines before).perform (.search (trim line))).1 :: t.replies after := by
    rw [Session.replies_append s hbefore, Session.replies_cons hline.not_leave, hmeans,
      Session.perform_search_snd, hg]
    exact congrArg (_ ++ _ :: ·) (t.replies_generation g.bump.2 after)
  have hwithout : s.replies (before ++ after) = s.replies before ++ t.replies after := by
    rw [Session.replies_append s hbefore, hg, Session.replies_generation]
  refine ⟨s.replies before, ((s.afterLines before).perform (.search (trim line))).1,
    t.replies after, s.length_replies hbefore, ?_, fun input' hinput' => ?_,
    fun query htrim => ⟨a.exists_parse_once hargs query, fun args' input' hargs' => ?_⟩⟩
  · rw [ofRun_prompt hargs hquery hstart, hlines, hleft]
  · rw [ofRun_prompt hargs hquery hstart, hinput', hwithout]
  · rw [ofRun_once hargs' rfl (honce _ _ _), hg]
    exact t.asRun_perform htrim g

/-- The case is switched, columns are named and a blank line is passed over before the query. -/
theorem prompt_answers_as_once_switched :
    let readText := fun path =>
      if path = "t.json" then some "[[\"A\",\"B\"],[\"xy\",\"x\"],[\"X\",\"z\"]]" else none
    let args := ["--exact", "t.json"]
    let input := "/case\n/columns col.B\n\n x \n/exact\ny"
    let before := ["/case", "/columns col.B", ""]
    let a : Arguments := ⟨"t.json", none, ⟨false, true⟩, [], none, false⟩
    let t := Table.ofRows [.single "A", .single "B"] [["xy", "x"], ["X", "z"]]
    let s := ((Session.ofTable t).setStyle .page).configured ⟨false, true⟩ []
    let args' := ["--exact", "--case-sensitive", "--column=col.B", "--query= x ", "t.json"]
    Arguments.parse args = .ok a ∧ a.query = none ∧
      Id.run (startSession (pure ∘ readText) a) = .ok s ∧
      (linesOf input.toList).map .ofList = before ++ " x " :: ["/exact", "y"] ∧
      (∀ l ∈ before, trim l ≠ "/bye") ∧ IsQuery " x " ∧
      ∃ earlier reply later, earlier.length = 3 ∧
        Transcript.ofRun readText args input = s.transcript (earlier ++ reply :: later) ∧
        reply.AsRun (Transcript.ofRun readText args' "") := by
  intro readText args input before a t s args'
  have hargs : Arguments.parse args = .ok a := by decide +kernel
  have hstart : Id.run (startSession (pure ∘ readText) a) = .ok s := by decide +kernel
  have hlines : (linesOf input.toList).map .ofList = before ++ " x " :: ["/exact", "y"] := by
    decide +kernel
  have hbefore : ∀ l ∈ before, trim l ≠ "/bye" := by decide +kernel
  have hline : IsQuery " x " := ⟨by decide, by decide, by decide, by decide, by decide⟩
  have hargs' : Arguments.parse args' = .ok (a.once before " x ") := by decide +kernel
  obtain ⟨earlier, reply, later, hlength, hrun, -, honce⟩ :=
    prompt_answers_as_once hargs rfl hstart hlines hbefore hline
  exact ⟨hargs, rfl, hstart, hlines, hbefore, hline, earlier, reply, later, hlength, hrun,
    (honce " x " rfl).2 args' "" hargs'⟩

end CellQuery
