import CellQuery.Proofs.Prompt.Once
import CellQuery.Proofs.Table.Form
import CellQuery.Proofs.Table.Label
import CellQuery.Proofs.Table.Selection
import CellQuery.Proofs.Text.Words

/-!
# Naming columns at the prompt and on the command line

On the command line every key is a word to itself (`Arguments.parse_columnWords`), at the prompt the
keys are what a line has between its blanks (`ofLine_columnsLine`). Keys without blanks are the same
in both (`flatMap_words`), but no line names a key with a blank in it (`isWord_of_columnsOf?`). Such
keys come from headers with blanks, and from the labels `Column 2` and `A (2)`.
-/

namespace CellQuery

open Text

/-! ### Command lines -/

namespace Arguments

/-- The words of a command line that select `keys`. -/
def columnWords (keys : List String) : List String :=
  keys.flatMap (["--column", ·])

/-- What has been read, with `keys` selected before it. -/
def Draft.putFirst (keys : List String) (d : Draft) : Draft :=
  { d with columns := keys ++ d.columns }

/-- The arguments with `keys` selected before their own. -/
def putFirst (keys : List String) (a : Arguments) : Arguments :=
  { a with columns := keys ++ a.columns }

section PutFirst

variable (keys : List String) (d : Draft)

theorem addPath_putFirst (path : String) :
    (d.putFirst keys).addPath path = (d.addPath path).map (Draft.putFirst keys) := by
  show (Draft.path? d.path path >>= _) = Except.map _ (Draft.path? d.path path >>= _)
  cases Draft.path? d.path path <;> rfl

theorem addSwitch_putFirst (s : Switch) :
    (d.putFirst keys).addSwitch s = (d.addSwitch s).map (Draft.putFirst keys) := by
  unfold Draft.addSwitch
  show (if d.switches.contains s then _ else _) = _
  split <;> rfl

theorem addSetting_putFirst (s : Setting) (value : String) :
    (d.putFirst keys).addSetting s value = (d.addSetting s value).map (Draft.putFirst keys) := by
  cases s with
  | compare =>
    show (Draft.path? d.compare value >>= _) = Except.map _ (Draft.path? d.compare value >>= _)
    cases Draft.path? d.compare value <;> rfl
  | column =>
    have hcolumns : keys ++ d.columns ++ [value] = keys ++ (d.columns ++ [value]) :=
      List.append_assoc _ _ _
    exact congrArg (fun columns => Except.ok { d with columns := columns }) hcolumns
  | query =>
    show (Draft.once d.query value >>= _) = Except.map _ (Draft.once d.query value >>= _)
    cases Draft.once d.query value <;> rfl

theorem finish_putFirst : (d.putFirst keys).finish = d.finish.map (putFirst keys) := by
  obtain ⟨path, compare, switches, columns, query⟩ := d
  cases path <;> rfl

variable {keys}

/-- What follows a step that keeps `keys` in front keeps them there too. -/
theorem bind_putFirst {x : Except Usage Draft} {f : Draft → Except Usage Arguments}
    (h : ∀ d, f (d.putFirst keys) = (f d).map (putFirst keys)) :
    x.map (Draft.putFirst keys) >>= f = (x >>= f).map (putFirst keys) := by
  cases x with
  | error e => rfl
  | ok d => exact h d

variable (keys)

theorem foldlM_addPath_putFirst (paths : List String) :
    paths.foldlM Draft.addPath (d.putFirst keys) =
      (paths.foldlM Draft.addPath d).map (Draft.putFirst keys) := by
  induction paths generalizing d with
  | nil => rfl
  | cons path paths ih =>
    rw [List.foldlM_cons, List.foldlM_cons, addPath_putFirst]
    cases d.addPath path with
    | error e => rfl
    | ok d' => exact ih d'

/-- Nothing that is read depends on the columns that have been selected. -/
theorem parseFrom_putFirst (rest : List String) :
    parseFrom (d.putFirst keys) rest = (parseFrom d rest).map (putFirst keys) := by
  -- the columns are only ever added to, so what stands in front of them stays in front
  induction d, rest using parseFrom.induct with
  | case1 d => exact finish_putFirst keys d
  | case2 d arg rest hword =>
    rw [parseFrom.eq_def, parseFrom.eq_def d]
    simp only [hword, foldlM_addPath_putFirst]
    exact bind_putFirst (finish_putFirst keys)
  | case4 d arg s rest hword ih =>
    rw [parseFrom.eq_def, parseFrom.eq_def d]
    simp only [hword, addSwitch_putFirst]
    exact bind_putFirst ih
  | case5 d arg s value rest hword ih =>
    rw [parseFrom.eq_def, parseFrom.eq_def d]
    simp only [hword, addSetting_putFirst]
    exact bind_putFirst ih
  | case6 d arg s value rest hword text hplain ih =>
    rw [parseFrom.eq_def, parseFrom.eq_def d]
    simp only [hword, hplain, addSetting_putFirst]
    exact bind_putFirst ih
  | case9 d arg text rest hword ih =>
    rw [parseFrom.eq_def, parseFrom.eq_def d]
    simp only [hword, addPath_putFirst]
    exact bind_putFirst ih
  | case3 d | case7 d | case8 d | case10 d =>
    rw [parseFrom.eq_def, parseFrom.eq_def d]
    simp only [*]
    rfl

end PutFirst

variable {keys : List String}

theorem parseFrom_columnWords (h : ∀ key ∈ keys, Word.ofText key = .plain key) (d : Draft)
    (rest : List String) :
    parseFrom d (columnWords keys ++ rest) =
      parseFrom { d with columns := d.columns ++ keys } rest := by
  induction keys generalizing d with
  | nil =>
    rw [List.append_nil]
    rfl
  | cons key keys ih =>
    obtain ⟨hkey, hkeys⟩ := List.forall_mem_cons.mp h
    have hword : Word.ofText "--column" = .setting .column none := by decide
    have hstep : parseFrom d ("--column" :: key :: (columnWords keys ++ rest)) =
        parseFrom { d with columns := d.columns ++ [key] } (columnWords keys ++ rest) := by
      conv_lhs => unfold parseFrom
      simp only [hword, hkey]
      rfl
    rw [List.append_cons d.columns key keys]
    exact hstep.trans (ih hkeys _)

/-- Keys that are named first are selected first. -/
theorem parse_columnWords (h : ∀ key ∈ keys, Word.ofText key = .plain key) (args : List String) :
    parse (columnWords keys ++ args) = (parse args).map (putFirst keys) := by
  have hfirst : ({ columns := [] ++ keys } : Draft) = Draft.putFirst keys {} := by
    rw [Draft.putFirst, List.append_nil, List.nil_append]
  rw [parse, parseFrom_columnWords h]
  exact (congrArg (parseFrom · args) hfirst).trans (parseFrom_putFirst keys {} args)

end Arguments

/-! ### Table files -/

/-- The session that a command line starts, if it starts one. -/
def started? (readText : String → Option String) (args : List String) : Option Session :=
  match Arguments.parse args with
  | .error _ => none
  | .ok a => (Id.run (startSession (pure ∘ readText) a)).toOption

section Files

variable {readText : String → Option String} {args : List String} {a : Arguments} {text : String}
  {t : Table}

theorem started?_of_parse (hargs : Arguments.parse args = .ok a) (hcompare : a.compare = none)
    (hfile : readText a.path = some text) (hparse : Table.parse text = .ok t) :
    started? readText args = some
      (((Session.ofTable t).setStyle (if a.ansi then .terminal else .page)).configured
        a.options a.columns) := by
  have htable : Id.run (loadTable (pure ∘ readText) a.path) = .ok t := by
    unfold loadTable
    simp [hfile, hparse]
  have hload : Id.run (loadSession (pure ∘ readText) a.path a.compare) = .ok (.ofTable t) := by
    unfold loadSession
    simp [htable, hcompare]
  rw [started?, hargs]
  dsimp only
  rw [startSession_eq, hload]
  rfl

/-- The key of a column of a table file begins with a letter. -/
theorem ofText_key (hparse : Table.parse text = .ok t) :
    ∀ key ∈ t.keys, Arguments.Word.ofText key = .plain key := by
  obtain ⟨d, -, rfl⟩ := Table.parse_eq_ok_iff.mp hparse
  intro key hkey
  rw [Table.keys, Document.table, columns_ofRecords, List.map_map] at hkey
  obtain ⟨label, -, rfl⟩ := List.mem_map.mp hkey
  have hlist : (Column.single label).key.toList = 'c' :: 'o' :: 'l' :: '.' :: label.toList := by
    show ("col" ++ "." ++ label).toList = _
    simp
  -- no key can be taken for an option, since none begins with a hyphen
  rw [Function.comp_apply, Arguments.Word.ofText, hlist]
  rfl

/-- A command line selects the keys of a table file that stand before it. -/
theorem exists_started?_columnWords (hargs : Arguments.parse args = .ok a)
    (hcompare : a.compare = none) (hcolumns : a.columns = []) (hfile : readText a.path = some text)
    (hparse : Table.parse text = .ok t) {keys : List String} (hkeys : keys ⊆ t.keys) :
    ∃ s, started? readText (Arguments.columnWords keys ++ args) = some s ∧
      s.selection = .ofKeys keys t.columns := by
  have hplain : ∀ key ∈ keys, Arguments.Word.ofText key = .plain key :=
    fun key hkey => ofText_key hparse key (hkeys hkey)
  have hargs' : Arguments.parse (Arguments.columnWords keys ++ args) = .ok (a.putFirst keys) := by
    rw [Arguments.parse_columnWords hplain, hargs]
    rfl
  refine ⟨_, started?_of_parse hargs' hcompare hfile hparse, ?_⟩
  show Selection.ofKeys (keys ++ a.columns) t.columns = _
  rw [hcolumns, List.append_nil]

end Files

/-! ### Lines -/

/-- The line that selects `keys` at the prompt. -/
def columnsLine (keys : List String) : String :=
  "/columns" ++ String.join (keys.map (" " ++ ·))

/-- What stands behind `/columns` is split into words, whatever it is. -/
theorem columnsOf?_append (rest : String) : columnsOf? ("/columns" ++ rest) = some (words rest) := by
  have htrim : trimChars ("/columns" ++ rest).toList = "/columns".toList ++ trimEnd rest.toList := by
    have hfront : ("/columns".toList ++ rest.toList).dropWhile isBlank =
        "/columns".toList ++ rest.toList := rfl
    rw [String.toList_append, trimChars, hfront, trimEnd_append (by decide)]
  have hrest : afterStart? "/columns".toList (trim ("/columns" ++ rest)).toList =
      some (trimEnd rest.toList) := by
    rw [toList_trim, htrim, afterStart?, if_pos (by simp), List.drop_left]
  rw [columnsOf?, hrest, Option.map_some, words, String.toList_ofList, wordsOf_trimEnd]
  rfl

theorem words_join (keys : List String) :
    words (String.join (keys.map (" " ++ ·))) = keys.flatMap words := by
  have hspelt : (String.join (keys.map (" " ++ ·))).toList =
      (keys.map String.toList).flatMap (' ' :: ·) := by
    simp [List.flatMap_map]
  rw [words, hspelt, wordsOf_flatMap_blank (by decide), List.flatMap_map, List.map_flatMap]
  rfl

theorem ofLine_columnsLine (keys : List String) :
    Command.ofLine (columnsLine keys) = .columns (keys.flatMap words) := by
  rw [← words_join]
  exact ofLine_eq_iff.mpr (.columns (columnsOf?_append _))

/-- Keys without blanks are read back from the line that selects them. -/
theorem flatMap_words {keys : List String} (h : ∀ key ∈ keys, IsWord key.toList) :
    keys.flatMap words = keys :=
  calc keys.flatMap words
    _ = keys.flatMap (fun key => [key]) :=
        List.flatMap_congr fun key hkey => words_of_isWord (h key hkey)
    _ = keys := List.flatMap_singleton' keys

/-- A key that a line selects is a word. -/
theorem isWord_of_columnsOf? {line : String} {keys : List String} (h : columnsOf? line = some keys) :
    ∀ key ∈ keys, IsWord key.toList := by
  intro key hkey
  obtain ⟨rest, -, rfl⟩ := Option.map_eq_some_iff.mp h
  obtain ⟨word, hword, rfl⟩ := List.mem_map.mp hkey
  rw [String.toList_ofList]
  exact isWord_of_mem_wordsOf hword

theorem isWord_of_mem_columnsAfter {lines : List String} {key : String}
    (h : key ∈ columnsAfter [] lines) : IsWord key.toList := by
  rcases exists_columnsOf?_of_mem h with hkey | ⟨line, -, named, hnamed, hkey⟩
  · cases hkey
  · exact isWord_of_columnsOf? hnamed key hkey

namespace Session

theorem selection_afterLines (s : Session) (o : Options) (keys lines : List String) :
    ((s.configured o keys).afterLines lines).selection =
      .ofKeys (columnsAfter keys lines) s.table.columns := by
  obtain ⟨g, hg⟩ := s.afterLines_configured o keys lines
  rw [hg]
  rfl

/-- Whatever lines come before it, a line that selects columns is answered with their names. -/
theorem reply_columns (s : Session) (o : Options) (keys lines named : List String) :
    (((s.configured o keys).afterLines lines).perform (.columns named)).1 =
      ⟨"Columns: " ++ (Selection.ofKeys named s.table.columns).describe s.table.columns ++ "\n",
        none⟩ := by
  obtain ⟨g, hg⟩ := s.afterLines_configured o keys lines
  rw [hg]
  rfl

end Session

/-! ### The prompt and the command line -/

/-- **What the prompt can select by keys.** A line that names keys of a table file without a blank
in them selects what the command line selects by these keys, and says what it is. The column that
the command line selects by a key with a blank in it is one that no lines at the prompt select,
unless it is the only one. -/
theorem prompt_columns_reach {readText : String → Option String} {args : List String}
    {a : Arguments} {text : String} {t : Table} (hargs : Arguments.parse args = .ok a)
    (hcompare : a.compare = none) (hcolumns : a.columns = [])
    (hfile : readText a.path = some text) (hparse : Table.parse text = .ok t) :
    ∃ s, started? readText args = some s ∧ s.table = t ∧
      (∀ keys ⊆ t.keys, (∀ key ∈ keys, IsWord key.toList) ∨ t.columnCount ≤ 1 →
        ∃ s', started? readText (Arguments.columnWords keys ++ args) = some s' ∧ ∀ lines,
          (s.afterLines (lines ++ [columnsLine keys])).selection = s'.selection ∧
          ((s.afterLines lines).perform (.ofLine (columnsLine keys))).1 =
            ⟨"Columns: " ++ s'.selection.describe t.columns ++ "\n", none⟩) ∧
      ∀ key ∈ t.keys, ¬ IsWord key.toList → 1 < t.columnCount →
        ∃ s', started? readText (Arguments.columnWords [key] ++ args) = some s' ∧
          ∀ lines, (s.afterLines lines).selection ≠ s'.selection := by
  refine ⟨_, started?_of_parse hargs hcompare hfile hparse, rfl, ?_, ?_⟩
  -- a key without blanks survives the splitting of the line; with one column there is nothing to
  -- restrict, whatever the line names
  · intro keys hkeys hwords
    obtain ⟨s', hstart, hselection⟩ :=
      exists_started?_columnWords hargs hcompare hcolumns hfile hparse hkeys
    have hnamed : Selection.ofKeys (keys.flatMap words) t.columns = s'.selection := by
      rw [hselection]
      rcases hwords with hwords | hfew
      · rw [flatMap_words hwords]
      · rw [Selection.ofKeys_eq_all hfew, Selection.ofKeys_eq_all hfew]
    refine ⟨s', hstart, fun lines => ⟨?_, ?_⟩⟩
    · rw [Session.selection_afterLines, columnsAfter_snoc, ofLine_columnsLine]
      exact hnamed
    · rw [ofLine_columnsLine, Session.reply_columns, ← hnamed]
      rfl
  · intro key hkey hblank hcount
    have hkeys : [key] ⊆ t.keys := List.cons_subset.mpr ⟨hkey, List.nil_subset _⟩
    obtain ⟨s', hstart, hselection⟩ :=
      exists_started?_columnWords hargs hcompare hcolumns hfile hparse hkeys
    obtain ⟨i, hi⟩ := exists_columnIndex? hkey
    refine ⟨s', hstart, fun lines hsame => hblank ?_⟩
    -- only `key` finds column `i`, so a line names it
    have honly : Selection.ofKeys (columnsAfter a.columns lines) t.columns = .only [i] := by
      rw [← Selection.ofKeys_singleton hi hcount, ← hselection, ← hsame,
        Session.selection_afterLines]
      rfl
    have hmem : i ∈ (Selection.ofKeys (columnsAfter a.columns lines) t.columns).restriction := by
      rw [honly]
      exact List.mem_singleton_self i
    obtain ⟨found, hfound, hi'⟩ := Selection.exists_of_mem_restriction_ofKeys hmem
    rw [hcolumns] at hfound
    rw [← columnIndex?_inj hi' hi]
    exact isWord_of_mem_columnsAfter hfound

/-- Two keys are named at the prompt as on the command line, and the key of the column that has no
header is not. -/
theorem prompt_columns_reach_unlabelled :
    let text := "[[\"Name\",\"\",\"City\"],[\"x\",\"y\",\"z\"]]"
    let readText := fun path => if path = "t.json" then some text else none
    let args := ["--exact", "t.json"]
    let a : Arguments := ⟨"t.json", none, ⟨false, true⟩, [], none, false⟩
    let t := Table.ofRows [.single "Name", .single "Column 2", .single "City"] [["x", "y", "z"]]
    Arguments.parse args = .ok a ∧ a.compare = none ∧ a.columns = [] ∧
      readText a.path = some text ∧ Table.parse text = .ok t ∧
      t.keys = ["col.Name", "col.Column 2", "col.City"] ∧
      ∃ s s' s'', started? readText args = some s ∧
        started? readText ("--column" :: "col.City" :: "--column" :: "col.Name" :: args) = some s' ∧
        started? readText ("--column" :: "col.Column 2" :: args) = some s'' ∧
        s'.selection = .only [2, 0] ∧ s''.selection = .only [1] ∧
        ∀ lines,
          (s.afterLines (lines ++ ["/columns col.City col.Name"])).selection = .only [2, 0] ∧
          ((s.afterLines lines).perform (.ofLine "/columns col.City col.Name")).1 =
            ⟨"Columns: Name, City\n", none⟩ ∧
          (s.afterLines lines).selection ≠ .only [1] := by
  intro text readText args a t
  have hargs : Arguments.parse args = .ok a := by decide +kernel
  have hparse : Table.parse text = .ok t := by decide +kernel
  have hkeys : t.keys = ["col.Name", "col.Column 2", "col.City"] := by decide
  have hfile : readText a.path = some text := if_pos rfl
  obtain ⟨s, hs, -, halike, hapart⟩ := prompt_columns_reach hargs rfl rfl hfile hparse
  rw [hkeys] at halike hapart
  obtain ⟨s', hs', hlines⟩ := halike ["col.City", "col.Name"] (by simp) (.inl (by decide))
  obtain ⟨s'', hs'', hapart⟩ := hapart "col.Column 2" (by simp) (by decide) (by decide)
  have hnamed : s'.selection = .only [2, 0] := by
    have hselected : (started? readText (Arguments.columnWords ["col.City", "col.Name"] ++
        args)).map Session.selection = some (.only [2, 0]) := by decide +kernel
    rw [hs'] at hselected
    exact Option.some.inj hselected
  have hunlabelled : s''.selection = .only [1] := by
    have hselected : (started? readText (Arguments.columnWords ["col.Column 2"] ++ args)).map
        Session.selection = some (.only [1]) := by decide +kernel
    rw [hs''] at hselected
    exact Option.some.inj hselected
  rw [hnamed] at hlines
  rw [hunlabelled] at hapart
  refine ⟨hargs, rfl, rfl, hfile, hparse, hkeys, s, s', s'', hs, hs', hs'', hnamed, hunlabelled,
    fun lines => ⟨(hlines lines).1, (hlines lines).2, hapart lines⟩⟩

/-- A file whose second header is missing. The prompt lists the key of the second column, the
command line selects the column by it, and the line that names it selects all columns. -/
theorem columns_key_with_blank :
    let text := "[[\"Name\",\"\"],[\"x\",\"y\"]]"
    let readText := fun path => if path = "t.json" then some text else none
    Transcript.ofRun readText ["t.json"] "/columns col.Column 2\n" =
        ⟨0, "1 rows, columns: col.Name, col.Column 2\n> Columns: All\n> ", []⟩ ∧
      (started? readText ["--column", "col.Column 2", "t.json"]).map Session.selection =
        some (.only [1]) ∧
      (started? readText ["t.json"]).map
        (fun s => (s.afterLines [columnsLine ["col.Column 2"]]).selection) = some .all := by
  decide +kernel

end CellQuery
