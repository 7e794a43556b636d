import CellQuery.Proofs.Json.Spelling
import CellQuery.Wire.Query
import CellQuery.Wire.Table
import Mathlib.Data.List.Permutation

/-!
# The wire formats lose nothing

A value may be told in many texts: the strings in it escaped in any way, the fields of its records
in any order and others among them (`Tells`). All these are read as the value (`LawfulWire.reads`),
and the text that is written for it is one of them. So what was written is read back as it was
(`decode?_encode`). Each type has to say only how its own trees are read: the laws of lists and
records are made from those of their parts.
-/

namespace CellQuery

open Json

/-! ### What a tree tells -/

section Tells

/-- The fields of an object by the texts of their keys. -/
def textFields? (fields : List (List Code × Tree)) : Option (List (String × Tree)) :=
  fields.mapM fun (k, t) => (textOf? k).map (·, t)

/-- The keys of fields. -/
def fieldNames (fs : List (String × Value)) : List String :=
  fs.map (·.1)

mutual

/-- A tree that means a value. -/
inductive Tells : Tree → Value → Prop where
  | null : Tells .null .null
  | bool (b : Bool) : Tells (.bool b) (.bool b)
  | number {n : Numeral} {m : Number} : n.number? = some m → Tells (.numeral n) (.number m)
  | text {codes : List Code} {s : String} : textOf? codes = some s → Tells (.text codes) (.text s)
  | array {ts : List Tree} {vs : List Value} : ElementsTell ts vs → Tells (.array ts) (.array vs)
  /-- Fields that the value does not have count for nothing. -/
  | object {fields : List (List Code × Tree)} {named us : List (String × Tree)}
      {fs : List (String × Value)} :
      textFields? fields = some named →
      (named.filter fun (k, _) => (fieldNames fs).contains k).Perm us → FieldsTell us fs →
      Tells (.object fields) (.object fs)

/-- Trees that mean values, one by one. -/
inductive ElementsTell : List Tree → List Value → Prop where
  | nil : ElementsTell [] []
  | cons {t : Tree} {v : Value} {ts : List Tree} {vs : List Value} :
      Tells t v → ElementsTell ts vs → ElementsTell (t :: ts) (v :: vs)

/-- Trees that mean the values of fields, under the same keys and in the same order. -/
inductive FieldsTell : List (String × Tree) → List (String × Value) → Prop where
  | nil : FieldsTell [] []
  | cons {k : String} {t : Tree} {v : Value} {us : List (String × Tree)}
      {fs : List (String × Value)} :
      Tells t v → FieldsTell us fs → FieldsTell ((k, t) :: us) ((k, v) :: fs)

end

/-- The fields of a tree by the texts of their keys, which are found again. -/
def namedTrees (fs : List (String × Value)) : List (String × Tree) :=
  fs.map fun (k, v) => (k, v.tree)

theorem textFields?_fieldTrees (fs : List (String × Value)) :
    textFields? (fieldTrees fs) = some (namedTrees fs) := by
  induction fs with
  | nil => rfl
  | cons f fs ih =>
    unfold textFields? at ih ⊢
    simp only [fieldTrees, List.mapM_cons, ih, textOf?_codesOf]
    rfl

theorem filter_namedTrees (fs : List (String × Value)) :
    ((namedTrees fs).filter fun (k, _) => (fieldNames fs).contains k) = namedTrees fs := by
  refine List.filter_eq_self.mpr fun u hu => ?_
  obtain ⟨f, hf, rfl⟩ := List.mem_map.mp hu
  exact List.contains_iff_mem.mpr (List.mem_map.mpr ⟨f, hf, rfl⟩)

mutual

/-- The tree of the text of a value tells it. -/
theorem tells_tree : ∀ v : Value, v.plain = true → Tells v.tree v
  | .null, _ => .null
  | .bool b, _ => .bool b
  | .number _, h => by cases h
  | .text s, _ => .text (textOf?_codesOf s)
  | .array vs, h => .array (elementsTell_trees vs h)
  | .object fs, h => by
    refine .object (textFields?_fieldTrees fs) ?_ (fieldsTell_trees fs h)
    rw [filter_namedTrees]

theorem elementsTell_trees :
    ∀ vs : List Value, plainElements vs = true → ElementsTell (elementTrees vs) vs
  | [], _ => .nil
  | v :: vs, h => by
    have h := Bool.and_eq_true_iff.mp h
    exact .cons (tells_tree v h.1) (elementsTell_trees vs h.2)

theorem fieldsTell_trees :
    ∀ fs : List (String × Value), plainFields fs = true → FieldsTell (namedTrees fs) fs
  | [], _ => .nil
  | (k, v) :: fs, h => by
    have h := Bool.and_eq_true_iff.mp h
    exact .cons (tells_tree v h.1) (fieldsTell_trees fs h.2)

end

end Tells

/-! ### Laws -/

/-- The values of a type are written without numbers, and read from any tree that tells them. -/
class LawfulWire (α : Type) [Wire α] : Prop where
  plain (x : α) : (Wire.toValue x).plain = true
  reads {t : Tree} {x : α} : Tells t (Wire.toValue x) → Wire.ofTree? t = some x

namespace Wire

variable {α : Type} [Wire α] [LawfulWire α]

theorem decode?_of_tells {text : String} {t : Tree} {x : α} (ht : Tree.parse? text = some t)
    (h : Tells t (toValue x)) : decode? text = some x := by
  rw [decode?, ht, Option.bind_some]
  exact LawfulWire.reads h

theorem decode?_encode (x : α) : decode? (encode x) = some x :=
  decode?_of_tells (parse?_spell (LawfulWire.plain x)) (tells_tree _ (LawfulWire.plain x))

example : encode [Token.operand "a\"", .operator .lparen] =
    "[\x7b\"type\":\"operand\",\"value\":\"a\\\"\"\x7d," ++
      "\x7b\"type\":\"operator\",\"value\":\"(\"\x7d]" := by decide +kernel

/-! ### Plain values and names -/

instance : LawfulWire Bool where
  plain _ := rfl
  reads h := by
    cases h
    rfl

instance : LawfulWire String where
  plain _ := rfl
  reads h := by
    cases h with
    | text h => exact h

theorem mapM_ofTree? {ts : List Tree} {xs : List α} (h : ElementsTell ts (xs.map toValue)) :
    ts.mapM ofTree? = some xs := by
  induction xs generalizing ts with
  | nil =>
    cases h
    rfl
  | cons x xs ih =>
    cases h with
    | cons hx hxs => rw [List.mapM_cons, LawfulWire.reads hx, ih hxs]; rfl

instance : LawfulWire (List α) where
  plain xs := by
    refine plainElements_iff.mpr fun v hv => ?_
    obtain ⟨x, -, rfl⟩ := List.mem_map.mp hv
    exact LawfulWire.plain x
  reads h := by
    cases h with
    | array h => exact mapM_ofTree? h

theorem nameOf?_of_tells {t : Tree} {s : String} (h : Tells t (.text s)) : nameOf? t = some s := by
  cases h with
  | text h => exact h

instance : LawfulWire Operator where
  plain _ := rfl
  reads {t op} h := by
    have hname := nameOf?_of_tells h
    show (nameOf? t).bind Operator.ofText? = some op
    rw [hname]
    exact Operator.ofText?_text op

instance : LawfulWire Origin where
  plain _ := rfl
  reads {t o} h := by
    have hname := nameOf?_of_tells h
    show (nameOf? t).bind Origin.ofName? = some o
    rw [hname]
    exact Origin.ofName?_name o

/-! ### Records -/

theorem fieldNames_of_fieldsTell {us : List (String × Tree)} {fs : List (String × Value)}
    (h : FieldsTell us fs) : us.map (·.1) = fieldNames fs := by
  induction fs generalizing us with
  | nil =>
    cases h
    rfl
  | cons f fs ih =>
    cases h with
    | cons _ h => exact congrArg _ (ih h)

/-- The fields of a record are found in any tree that tells it, each once. -/
theorem fieldsOf?_of_tells (names : List String) {t : Tree} {fs : List (String × Value)}
    (h : Tells t (.object fs)) (hnames : fieldNames fs = names) (hnodup : names.Nodup) :
    ∃ known us, fieldsOf? names t = some known ∧ (known.map (·.1)).Nodup ∧ known.Perm us ∧
      FieldsTell us fs := by
  subst hnames
  cases h with
  | @object fields named us _ hnamed hperm htell =>
    have hkeys : ((named.filter fun (k, _) => (fieldNames fs).contains k).map (·.1)).Nodup := by
      rw [(hperm.map _).nodup_iff, fieldNames_of_fieldsTell htell]
      exact hnodup
    refine ⟨_, us, ?_, hkeys, hperm, htell⟩
    unfold textFields? at hnamed
    simp only [fieldsOf?, hnamed, Option.bind_eq_bind, Option.bind_some]
    exact if_pos hkeys

theorem lookup_of_mem {us : List (String × Tree)} (h : (us.map (·.1)).Nodup) {k : String}
    {t : Tree} (hmem : (k, t) ∈ us) : us.lookup k = some t := by
  induction us with
  | nil => cases hmem
  | cons u us ih =>
    obtain ⟨hnew, hrest⟩ := List.nodup_cons.mp h
    rcases List.mem_cons.mp hmem with rfl | hmem
    · exact List.lookup_cons_self
    · have hne : (k == u.1) = false := by
        rw [beq_eq_false_iff_ne]
        rintro rfl
        exact hnew (List.mem_map.mpr ⟨_, hmem, rfl⟩)
      rw [List.lookup_cons, hne]
      exact ih hrest hmem

theorem exists_mem_of_fieldsTell {us : List (String × Tree)} {fs : List (String × Value)}
    (h : FieldsTell us fs) {k : String} {v : Value} (hmem : (k, v) ∈ fs) :
    ∃ t, (k, t) ∈ us ∧ Tells t v := by
  induction fs generalizing us with
  | nil => cases hmem
  | cons f fs ih =>
    cases h with
    | cons hf h =>
      rcases List.mem_cons.mp hmem with heq | hmem
      · cases heq
        exact ⟨_, List.mem_cons_self, hf⟩
      · obtain ⟨t, ht, htells⟩ := ih h hmem
        exact ⟨t, List.mem_cons_of_mem _ ht, htells⟩

/-- Whatever order they come in, the fields that were found tell each field of the record. -/
def Holds (known : List (String × Tree)) (fs : List (String × Value)) : Prop :=
  ∀ k v, (k, v) ∈ fs → ∃ t, known.lookup k = some t ∧ Tells t v

theorem exists_holds (names : List String) {t : Tree} {fs : List (String × Value)}
    (h : Tells t (.object fs)) (hnames : fieldNames fs = names) (hnodup : names.Nodup) :
    ∃ known, fieldsOf? names t = some known ∧ Holds known fs := by
  obtain ⟨known, us, hfields, hkeys, hperm, htell⟩ := fieldsOf?_of_tells names h hnames hnodup
  refine ⟨known, hfields, fun k v hmem => ?_⟩
  obtain ⟨t, ht, htells⟩ := exists_mem_of_fieldsTell htell hmem
  exact ⟨t, lookup_of_mem hkeys (hperm.mem_iff.mpr ht), htells⟩

section Holds

variable {known : List (String × Tree)} {fs : List (String × Value)} (h : Holds known fs)
  {k : String} {x : α} (hmem : (k, toValue x) ∈ fs)
include h hmem

theorem required?_of_holds : required? known k = some x := by
  obtain ⟨t, ht, htells⟩ := h k _ hmem
  rw [required?, ht, Option.bind_some]
  exact LawfulWire.reads htells

theorem optional?_of_holds (default : α) : optional? known k default = some x := by
  obtain ⟨t, ht, htells⟩ := h k _ hmem
  rw [optional?, ht]
  exact LawfulWire.reads htells

end Holds

instance : LawfulWire Options where
  plain _ := rfl
  reads {t o} h := by
    obtain ⟨known, hfields, hholds⟩ :=
      exists_holds ["caseSensitive", "exactMatch"] h rfl (by decide)
    have hcase := optional?_of_holds hholds (.head _) false
    have hexact := optional?_of_holds hholds (.tail _ (.head _)) false
    show (fieldsOf? _ t).bind _ = some o
    rw [hfields, Option.bind_some, hcase, hexact]
    rfl

instance : LawfulWire Style where
  plain _ := rfl
  reads {t s} h := by
    obtain ⟨known, hfields, hholds⟩ :=
      exists_holds ["open", "close", "escapeHtml"] h rfl (by decide)
    have hopening := required?_of_holds hholds (.head _)
    have hclosing := required?_of_holds hholds (.tail _ (.head _))
    have hescapes := optional?_of_holds hholds (.tail _ (.tail _ (.head _))) true
    show (fieldsOf? _ t).bind _ = some s
    rw [hfields, Option.bind_some, hopening, hclosing, hescapes]
    rfl

instance : LawfulWire Column where
  plain _ := rfl
  reads {t c} h := by
    obtain ⟨known, hfields, hholds⟩ :=
      exists_holds ["key", "label", "origin"] h rfl (by decide)
    have hkey := required?_of_holds hholds (.head _)
    have hlabel := required?_of_holds hholds (.tail _ (.head _))
    have horigin := required?_of_holds hholds (.tail _ (.tail _ (.head _)))
    show (fieldsOf? _ t).bind _ = some c
    rw [hfields, Option.bind_some, hkey, hlabel, horigin]
    rfl

instance : LawfulWire Table where
  plain t := by
    have hcolumns := LawfulWire.plain t.columns
    have hrows := LawfulWire.plain t.rows
    show ((toValue t.columns).plain && ((toValue t.rows).plain && true)) = true
    rw [hcolumns, hrows]
    rfl
  reads {t x} h := by
    obtain ⟨known, hfields, hholds⟩ := exists_holds ["columns", "rows"] h rfl (by decide)
    have hcolumns := optional?_of_holds hholds (.head _) []
    have hrows := optional?_of_holds hholds (.tail _ (.head _)) []
    show (fieldsOf? _ t).bind _ = some x
    rw [hfields, Option.bind_some, hcolumns, hrows]
    exact congrArg some (Table.ofRows_rows x)

/-- A token is told by the text of its kind and the text of its value. A text names an operator
alike whether it was held back or not. -/
theorem exists_texts (x : Token) : ∃ kind value,
    toValue x = .object [("type", .text kind), ("value", .text value)] ∧
      ∀ (name? : Tree → Option String) (t : Tree), Tells t (.text value) → name? t = some value →
        tokenOf? name? kind t = some x := by
  cases x with
  | operand s =>
    refine ⟨"operand", s, rfl, fun name? t ht _ => ?_⟩
    have hvalue : ofTree? t = some s := LawfulWire.reads ht
    rw [tokenOf?, hvalue, Option.map_some]
  | operator op =>
    refine ⟨"operator", op.text, rfl, fun name? t _ hname => ?_⟩
    rw [tokenOf?, hname, Option.bind_some, Operator.ofText?_text, Option.map_some]

theorem heldNameOf?_of_tells {t : Tree} {s : String} (h : Tells t (.text s)) :
    heldNameOf? t = some s := by
  cases h with
  | text h => exact h

instance : LawfulWire Token where
  plain x := by cases x <;> rfl
  reads {t x} h := by
    obtain ⟨kind, value, hx, hread⟩ := exists_texts x
    rw [hx] at h
    obtain ⟨known, us, hfields, -, hperm, htell⟩ :=
      fieldsOf?_of_tells ["type", "value"] h rfl (by decide)
    obtain ⟨k, v, rfl, hk, hv⟩ :
        ∃ k v, us = [("type", k), ("value", v)] ∧ Tells k (.text kind) ∧ Tells v (.text value) := by
      cases htell with
      | cons hk htell =>
        cases htell with
        | cons hv htell =>
          cases htell
          exact ⟨_, _, rfl, hk, hv⟩
    -- the kind can come before the value or behind it, which is then held back until the kind is
    -- known
    have horder : known = [("type", k), ("value", v)] ∨ known = [("value", v), ("type", k)] :=
      List.perm_pair.mp hperm
    cases h with
    | object _ _ _ =>
      show (fieldsOf? _ _).bind _ = some x
      rw [hfields, Option.bind_some]
      rcases horder with rfl | rfl
      · show (nameOf? k).bind _ = some x
        rw [nameOf?_of_tells hk]
        exact hread _ v hv (nameOf?_of_tells hv)
      · show (nameOf? k).bind _ = some x
        rw [nameOf?_of_tells hk]
        exact hread _ v hv (heldNameOf?_of_tells hv)

/-! ### Round trips -/

/-- What is written is read back, what is read is read back once it is written, and it does not
matter which text tells a value. -/
def RoundTrips (α : Type) [Wire α] : Prop :=
  (∀ x : α, decode? (encode x) = some x) ∧
    (∀ (text : String) (x : α), decode? text = some x → decode? (encode x) = some x) ∧
    ∀ (text : String) (t : Tree) (x : α), Tree.parse? text = some t → Tells t (toValue x) →
      decode? text = some x

theorem roundTrips (α : Type) [Wire α] [LawfulWire α] : RoundTrips α :=
  ⟨decode?_encode, fun _ x _ => decode?_encode x, fun _ _ _ ht h => decode?_of_tells ht h⟩

end Wire

/-- **The wire formats lose nothing.** -/
theorem wire_roundTrips : Wire.RoundTrips (List Token) ∧ Wire.RoundTrips Options ∧
    Wire.RoundTrips Style ∧ Wire.RoundTrips Column ∧ Wire.RoundTrips Table :=
  ⟨Wire.roundTrips _, Wire.roundTrips _, Wire.roundTrips _, Wire.roundTrips _, Wire.roundTrips _⟩

/-- Among other fields, in another order, with one row too short and one too long. -/
theorem wire_roundTrips_ragged :
    let text := "\x7b\"note\": [1e999], \"rows\": [[\"a\\u00e9\\n\"], [\"\", \"b\", \"c\"]], " ++
      "\"columns\": [\x7b\"origin\": \"single\", \"key\": \"col.A\", \"label\": \"A\"\x7d, " ++
      "\x7b\"origin\": \"single\", \"key\": \"col.B\", \"label\": \"B\"\x7d]\x7d"
    let t := Table.ofRows [.single "A", .single "B"] [["aé\n", ""], ["", "b"]]
    Wire.decode? text = some t ∧ Wire.decode? (Wire.encode t) = some t := by
  intro text t
  have htext : Wire.decode? text = some t := by decide +kernel
  exact ⟨htext, wire_roundTrips.2.2.2.2.2.1 text t htext⟩

end CellQuery
