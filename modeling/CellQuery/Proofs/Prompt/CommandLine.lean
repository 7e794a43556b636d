import CellQuery.Prompt.Arguments
import Mathlib.Data.List.Nodup

/-!
# Command lines for given arguments

Arguments can be written out in full as a command line (`Arguments.words`), which is read back as
they are (`parse_words`), except that no path is empty. Arguments that were read from a command line
have no empty path, and each of their texts is the end of one of its words (`sound_of_parse`).
-/

namespace CellQuery

namespace Arguments

/-! ### Words -/

/-- The name of a switch on the command line. -/
def Switch.name : Switch → String
  | caseSensitive => "case-sensitive"
  | exact => "exact"
  | ansi => "ansi"

/-- The name of a setting on the command line. -/
def Setting.name : Setting → String
  | compare => "compare"
  | column => "column"
  | query => "query"

/-- Whether a switch is on. -/
def has (a : Arguments) : Switch → Bool
  | .caseSensitive => a.options.caseSensitive
  | .exact => a.options.exactMatch
  | .ansi => a.ansi

/-- The switches that are on. -/
def switches (a : Arguments) : List Switch :=
  [Switch.caseSensitive, .exact, .ansi].filter a.has

/-- The word that turns a switch on. -/
def Switch.word (s : Switch) : String :=
  "--" ++ s.name

/-- The word that gives a setting its value. -/
def Setting.word (s : Setting) (value : String) : String :=
  "--" ++ s.name ++ "=" ++ value

theorem ofText_switchWord (s : Switch) : Word.ofText s.word = .switch s := by
  cases s <;> decide

theorem splitValue_append {name : List Char} (h : '=' ∉ name) (value : List Char) :
    splitValue (name ++ '=' :: value) = (name, some (.ofList value)) := by
  have hall : ∀ c ∈ name, decide (c ≠ '=') = true := by
    intro c hc
    exact decide_eq_true fun heq => h (heq ▸ hc)
  rw [splitValue, List.dropWhile_append_of_pos hall, List.takeWhile_append_of_pos hall]
  simp

theorem ofText_settingWord (s : Setting) (value : String) :
    Word.ofText (s.word value) = .setting s (some value) := by
  have hlist : (s.word value).toList = '-' :: '-' :: (s.name.toList ++ '=' :: value.toList) := by
    simp [Setting.word]
  have hsplit : splitValue (s.name.toList ++ '=' :: value.toList) = (s.name.toList, some value) := by
    rw [splitValue_append (by cases s <;> decide), String.ofList_toList]
  have hlong : longOption (s.name.toList ++ '=' :: value.toList) = .setting s (some value) := by
    rw [longOption, hsplit]
    cases s <;> rfl
  rw [← hlong, Word.ofText, hlist]
  cases s <;> rfl

/-- The arguments written out as a command line, with the path behind a separator. -/
def words (a : Arguments) : List String :=
  a.compare.toList.map Setting.compare.word ++ a.switches.map Switch.word ++
    a.columns.map Setting.column.word ++ a.query.toList.map Setting.query.word ++ ["--", a.path]

/-! ### Reading words -/

variable {d : Draft} {rest : List String}

theorem parseFrom_switch (s : Switch) :
    parseFrom d (s.word :: rest) = (d.addSwitch s).bind fun d => parseFrom d rest := by
  conv_lhs => unfold parseFrom
  rw [ofText_switchWord]
  rfl

theorem parseFrom_setting (s : Setting) (value : String) :
    parseFrom d (s.word value :: rest) = (d.addSetting s value).bind fun d => parseFrom d rest := by
  conv_lhs => unfold parseFrom
  rw [ofText_settingWord]
  rfl

theorem parseFrom_switches {switches : List Switch} (h : (switches.reverse ++ d.switches).Nodup) :
    parseFrom d (switches.map Switch.word ++ rest) =
      parseFrom { d with switches := switches.reverse ++ d.switches } rest := by
  induction switches generalizing d with
  | nil => rfl
  | cons s switches ih =>
    rw [List.reverse_cons, List.append_assoc, List.singleton_append] at h
    -- a switch that comes later is not among those read, since none is written twice
    have hs : s ∉ d.switches := (List.nodup_cons.mp (List.nodup_append.mp h).2.1).1
    have hadd : d.addSwitch s = .ok { d with switches := s :: d.switches } := by
      rw [Draft.addSwitch, if_neg (by simpa using hs)]
    rw [List.map_cons, List.cons_append, parseFrom_switch, hadd, List.reverse_cons,
      List.append_assoc, List.singleton_append]
    exact ih h

theorem parseFrom_columns (columns : List String) :
    parseFrom d (columns.map Setting.column.word ++ rest) =
      parseFrom { d with columns := d.columns ++ columns } rest := by
  induction columns generalizing d with
  | nil =>
    rw [List.append_nil]
    rfl
  | cons key columns ih =>
    have hadd : d.addSetting .column key = .ok { d with columns := d.columns ++ [key] } := rfl
    rw [List.map_cons, List.cons_append, parseFrom_setting, hadd,
      List.append_cons d.columns key columns]
    exact ih

theorem parseFrom_compare {compare : Option String} (h : compare ≠ some "")
    (hd : d.compare = none) :
    parseFrom d (compare.toList.map Setting.compare.word ++ rest) =
      parseFrom { d with compare := compare } rest := by
  cases compare with
  | none =>
    have hsame : { d with compare := none } = d := by rw [← hd]
    rw [hsame]
    rfl
  | some path =>
    have hne : path.isEmpty = false := by simpa using h
    have hadd : d.addSetting .compare path = .ok { d with compare := some path } := by
      simp only [Draft.addSetting, Draft.path?, Draft.once, hne, hd]
      rfl
    rw [Option.toList_some, List.map_singleton, List.singleton_append, parseFrom_setting, hadd]
    rfl

theorem parseFrom_query (query : Option String) (hd : d.query = none) :
    parseFrom d (query.toList.map Setting.query.word ++ rest) =
      parseFrom { d with query := query } rest := by
  cases query with
  | none =>
    have hsame : { d with query := none } = d := by rw [← hd]
    rw [hsame]
    rfl
  | some query =>
    have hadd : d.addSetting .query query = .ok { d with query := some query } := by
      simp only [Draft.addSetting, Draft.once, hd]
      rfl
    rw [Option.toList_some, List.map_singleton, List.singleton_append, parseFrom_setting, hadd]
    rfl

theorem parseFrom_path {path : String} (h : path ≠ "") (hd : d.path = none) :
    parseFrom d ["--", path] = { d with path := some path }.finish := by
  have hne : path.isEmpty = false := by simpa using h
  have hseparator : Word.ofText "--" = .separator := by decide
  have hadd : d.addPath path = .ok { d with path := some path } := by
    simp only [Draft.addPath, Draft.path?, Draft.once, hne, hd]
    rfl
  unfold parseFrom
  rw [hseparator]
  simp only [List.foldlM_cons, hadd]
  rfl

theorem nodup_reverse_switches (a : Arguments) : a.switches.reverse.Nodup := by
  rw [List.nodup_reverse]
  exact List.Nodup.filter _ (by decide)

theorem contains_reverse_switches (a : Arguments) (s : Switch) :
    a.switches.reverse.contains s = a.has s := by
  have hall : s ∈ [Switch.caseSensitive, .exact, .ansi] := by cases s <;> decide
  rw [Bool.eq_iff_iff, List.contains_iff_mem, List.mem_reverse, switches, List.mem_filter]
  exact and_iff_right hall

/-- A command line of arguments is read back as these arguments. -/
theorem parse_words {a : Arguments} (hpath : a.path ≠ "") (hcompare : a.compare ≠ some "") :
    parse a.words = .ok a := by
  have hnodup : (a.switches.reverse ++ []).Nodup := by
    rw [List.append_nil]
    exact a.nodup_reverse_switches
  simp only [words, List.append_assoc]
  -- the words are read group by group, in the order in which they are written
  rw [parse, parseFrom_compare hcompare rfl, parseFrom_switches hnodup, parseFrom_columns,
    parseFrom_query _ rfl, parseFrom_path hpath rfl]
  simp only [Draft.finish, List.append_nil, List.nil_append, contains_reverse_switches, has]

/-! ### Where texts come from -/

/-- The texts that have been read. -/
def Draft.texts (d : Draft) : List String :=
  d.path.toList ++ d.compare.toList ++ d.columns ++ d.query.toList

/-- The texts of arguments. -/
def texts (a : Arguments) : List String :=
  a.path :: a.compare.toList ++ a.columns ++ a.query.toList

/-- What the words `args` can be read as. -/
structure Draft.Sound (args : List String) (d : Draft) : Prop where
  path : d.path ≠ some ""
  compare : d.compare ≠ some ""
  texts : ∀ t ∈ d.texts, ∃ arg ∈ args, t.toList <:+ arg.toList

namespace Draft

variable {args : List String} {d d' : Draft} {value : String}

theorem once_eq_ok {current new : Option String} (h : once current value = .ok new) :
    new = some value := by
  unfold once at h
  split at h
  · cases h
  · exact (Except.ok.inj h).symm

theorem path?_eq_ok {current new : Option String} (h : path? current value = .ok new) :
    new = some value ∧ value ≠ "" := by
  unfold path? at h
  by_cases hempty : value.isEmpty = true
  · rw [if_pos hempty] at h
    cases h
  · rw [if_neg hempty] at h
    exact ⟨once_eq_ok h, by simpa using hempty⟩

theorem mem_texts {t : String} : t ∈ d.texts ↔
    d.path = some t ∨ d.compare = some t ∨ t ∈ d.columns ∨ d.query = some t := by
  simp [Draft.texts]

/-- A step that succeeds has results of its parts. -/
theorem exists_of_bind {α β : Type} {x : Except Usage α} {f : α → Except Usage β} {b : β}
    (h : x >>= f = .ok b) : ∃ a, x = .ok a ∧ f a = .ok b := by
  cases x with
  | error e => cases h
  | ok a => exact ⟨a, rfl, h⟩

theorem addPath_eq_ok (h : d.addPath value = .ok d') :
    value ≠ "" ∧ d' = { d with path := some value } := by
  obtain ⟨new, hnew, hd'⟩ := exists_of_bind h
  obtain ⟨rfl, hne⟩ := path?_eq_ok hnew
  exact ⟨hne, (Except.ok.inj hd').symm⟩

/-- A text that comes from a word may be added to what has been read. -/
theorem Sound.of_texts_subset (h : d.Sound args) (hpath : d'.path ≠ some "")
    (hcompare : d'.compare ≠ some "") (hvalue : ∃ arg ∈ args, value.toList <:+ arg.toList)
    (hsub : d'.texts ⊆ value :: d.texts) : d'.Sound args := by
  refine ⟨hpath, hcompare, fun t ht => ?_⟩
  rcases List.mem_cons.mp (hsub ht) with rfl | ht
  · exact hvalue
  · exact h.texts t ht

theorem Sound.addPath (h : d.Sound args) (hvalue : ∃ arg ∈ args, value.toList <:+ arg.toList)
    (hadd : d.addPath value = .ok d') : d'.Sound args := by
  obtain ⟨hne, rfl⟩ := addPath_eq_ok hadd
  refine h.of_texts_subset (by simpa using hne) h.compare hvalue fun t ht => ?_
  rw [mem_texts] at ht
  rw [List.mem_cons, mem_texts]
  grind

theorem Sound.addSwitch (h : d.Sound args) {s : Switch} (hadd : d.addSwitch s = .ok d') :
    d'.Sound args := by
  unfold Draft.addSwitch at hadd
  split at hadd
  · cases hadd
  · obtain rfl := Except.ok.inj hadd
    exact ⟨h.path, h.compare, h.texts⟩

theorem Sound.addSetting (h : d.Sound args) {s : Setting}
    (hvalue : ∃ arg ∈ args, value.toList <:+ arg.toList)
    (hadd : d.addSetting s value = .ok d') : d'.Sound args := by
  cases s with
  | compare =>
    obtain ⟨new, hnew, hd'⟩ := exists_of_bind hadd
    obtain ⟨rfl, hne⟩ := path?_eq_ok hnew
    obtain rfl := Except.ok.inj hd'
    refine h.of_texts_subset h.path (by simpa using hne) hvalue fun t ht => ?_
    rw [mem_texts] at ht
    rw [List.mem_cons, mem_texts]
    grind
  | column =>
    obtain rfl := Except.ok.inj hadd
    refine h.of_texts_subset h.path h.compare hvalue fun t ht => ?_
    rw [mem_texts] at ht
    rw [List.mem_cons, mem_texts]
    grind
  | query =>
    obtain ⟨new, hnew, hd'⟩ := exists_of_bind hadd
    obtain rfl := once_eq_ok hnew
    obtain rfl := Except.ok.inj hd'
    refine h.of_texts_subset h.path h.compare hvalue fun t ht => ?_
    rw [mem_texts] at ht
    rw [List.mem_cons, mem_texts]
    grind

theorem Sound.finish (h : d.Sound args) {a : Arguments} (hfinish : d.finish = .ok a) :
    a.path ≠ "" ∧ a.compare ≠ some "" ∧ ∀ t ∈ a.texts, ∃ arg ∈ args, t.toList <:+ arg.toList := by
  unfold Draft.finish at hfinish
  split at hfinish
  · cases hfinish
  · next path hpath =>
    obtain rfl := Except.ok.inj hfinish
    -- the path was looked at when it was added, so it is not empty here
    refine ⟨?_, h.compare, fun t ht => h.texts t ?_⟩
    · intro hempty
      exact h.path (hpath.trans (congrArg some hempty))
    · simpa [Draft.texts, Arguments.texts, hpath] using ht

end Draft

/-- What a long option can be. -/
theorem longOption_cases (cs : List Char) :
    (∀ t, longOption cs ≠ .plain t) ∧
      ∀ s value, longOption cs = .setting s (some value) → value.toList <:+ cs := by
  -- a value is what stands behind the first `=`, which is an end of the word
  have hsuffix : ∀ value, (splitValue cs).2 = some value → value.toList <:+ cs := by
    intro value h
    unfold splitValue at h
    split at h
    · cases h
    · next c rest hdrop =>
      obtain rfl := Option.some.inj h
      rw [String.toList_ofList]
      have hrest : rest <:+ cs.dropWhile (· ≠ '=') := hdrop ▸ List.suffix_cons c rest
      exact hrest.trans (List.dropWhile_suffix _)
  unfold longOption
  dsimp only
  split
  · simp
  · next s hswitch hsetting =>
    exact ⟨nofun, fun s' value h => hsuffix value (Word.setting.inj h).2⟩
  · split <;> simp
  · simp

theorem eq_of_ofText_plain {arg t : String} (h : Word.ofText arg = .plain t) : t = arg := by
  unfold Word.ofText at h
  split at h
  · cases h
  · exact absurd h ((longOption_cases _).1 t)
  · cases h
  · cases h
  · exact (Word.plain.inj h).symm

theorem suffix_of_ofText_setting {arg value : String} {s : Setting}
    (h : Word.ofText arg = .setting s (some value)) : value.toList <:+ arg.toList := by
  unfold Word.ofText at h
  split at h
  · cases h
  · next cs _ hcs =>
    rw [hcs]
    exact ((longOption_cases cs).2 s value h).trans ⟨['-', '-'], rfl⟩
  · cases h
  · cases h
  · cases h

theorem sound_foldlM {args paths : List String} {d d' : Draft} (hsub : paths ⊆ args)
    (h : d.Sound args) (hfold : paths.foldlM Draft.addPath d = .ok d') : d'.Sound args := by
  induction paths generalizing d with
  | nil =>
    obtain rfl := Except.ok.inj hfold
    exact h
  | cons path paths ih =>
    obtain ⟨hpath, hpaths⟩ := List.cons_subset.mp hsub
    obtain ⟨next, hnext, hrest⟩ := Draft.exists_of_bind hfold
    exact ih hpaths (h.addPath ⟨path, hpath, List.suffix_rfl⟩ hnext) hrest

theorem sound_parseFrom {args rest : List String} {d : Draft} {a : Arguments} (hsub : rest ⊆ args)
    (h : d.Sound args) (hparse : parseFrom d rest = .ok a) :
    ∃ d' : Draft, d'.Sound args ∧ d'.finish = .ok a := by
  -- every way of reading on adds texts that are ends of the word just read, or of the next one
  induction d, rest using parseFrom.induct with
  | case1 d => exact ⟨d, h, hparse⟩
  | case2 d arg rest hword =>
    -- after a separator everything is a path
    rw [parseFrom.eq_def] at hparse
    simp only [hword] at hparse
    obtain ⟨d', hfold, hfinish⟩ := Draft.exists_of_bind hparse
    exact ⟨d', sound_foldlM (List.cons_subset.mp hsub).2 h hfold, hfinish⟩
  | case4 d arg s rest hword ih =>
    rw [parseFrom.eq_def] at hparse
    simp only [hword] at hparse
    obtain ⟨d', hadd, hrest⟩ := Draft.exists_of_bind hparse
    exact ih d' (List.cons_subset.mp hsub).2 (h.addSwitch hadd) hrest
  | case5 d arg s value rest hword ih =>
    rw [parseFrom.eq_def] at hparse
    simp only [hword] at hparse
    obtain ⟨d', hadd, hrest⟩ := Draft.exists_of_bind hparse
    obtain ⟨harg, hrestsub⟩ := List.cons_subset.mp hsub
    exact ih d' hrestsub (h.addSetting ⟨arg, harg, suffix_of_ofText_setting hword⟩ hadd) hrest
  | case6 d arg s value rest hword text hplain ih =>
    rw [parseFrom.eq_def] at hparse
    simp only [hword, hplain] at hparse
    obtain ⟨d', hadd, hrest⟩ := Draft.exists_of_bind hparse
    obtain ⟨-, hsub⟩ := List.cons_subset.mp hsub
    obtain ⟨hvalue, hrestsub⟩ := List.cons_subset.mp hsub
    obtain rfl := eq_of_ofText_plain hplain
    exact ih d' hrestsub (h.addSetting ⟨_, hvalue, List.suffix_rfl⟩ hadd) hrest
  | case9 d arg text rest hword ih =>
    rw [parseFrom.eq_def] at hparse
    simp only [hword] at hparse
    obtain ⟨d', hadd, hrest⟩ := Draft.exists_of_bind hparse
    obtain ⟨harg, hrestsub⟩ := List.cons_subset.mp hsub
    obtain rfl := eq_of_ofText_plain hword
    exact ih d' hrestsub (h.addPath ⟨_, harg, List.suffix_rfl⟩ hadd) hrest
  | case3 | case7 | case8 | case10 =>
    rw [parseFrom.eq_def] at hparse
    simp only [*, reduceCtorEq] at hparse

/-- Arguments that have been read have no empty path, and their texts are ends of words. -/
theorem sound_of_parse {args : List String} {a : Arguments} (h : parse args = .ok a) :
    a.path ≠ "" ∧ a.compare ≠ some "" ∧ ∀ t ∈ a.texts, ∃ arg ∈ args, t.toList <:+ arg.toList := by
  have hempty : Draft.Sound args {} := ⟨nofun, nofun, nofun⟩
  obtain ⟨d, hd, hfinish⟩ := sound_parseFrom (List.Subset.refl args) hempty h
  exact hd.finish hfinish

/-! ### Texts that can be passed -/

/-- A text that can stand on a command line. -/
def Passable (text : String) : Prop :=
  '\x00' ∉ text.toList

theorem passable_of_subset {text text' : String} (h : Passable text)
    (hsub : text'.toList ⊆ text.toList) : Passable text' :=
  fun hmem => h (hsub hmem)

theorem passable_settingWord {s : Setting} {value : String} (h : Passable value) :
    Passable (s.word value) := by
  have hname : '\x00' ∉ "--".toList ++ s.name.toList ++ "=".toList := by cases s <;> decide
  unfold Passable
  rw [Setting.word, String.toList_append, String.toList_append, String.toList_append,
    List.mem_append]
  exact not_or.mpr ⟨hname, h⟩

theorem passable_words {a : Arguments} (h : ∀ t ∈ a.texts, Passable t) :
    ∀ word ∈ a.words, Passable word := by
  have hsettings : ∀ (s : Setting) (values : List String), (∀ v ∈ values, v ∈ a.texts) →
      ∀ word ∈ values.map s.word, Passable word := by
    intro s values hsub
    rw [List.forall_mem_map]
    exact fun value hvalue => passable_settingWord (h value (hsub value hvalue))
  have hswitches : ∀ word ∈ a.switches.map Switch.word, Passable word := by
    rw [List.forall_mem_map]
    intro s _
    cases s <;> exact of_decide_eq_false rfl
  have hseparator : Passable "--" := of_decide_eq_false rfl
  simp only [words, List.forall_mem_append, List.forall_mem_cons]
  refine ⟨⟨⟨⟨hsettings _ _ ?_, hswitches⟩, hsettings _ _ ?_⟩, hsettings _ _ ?_⟩, hseparator,
    h _ (List.mem_cons_self), nofun⟩
  all_goals
    intro v hv
    simp [texts, hv]

end Arguments

end CellQuery
