import Treebank.Proofs.Cutting
import Treebank.Proofs.RequestReading

/-! Values without quotes.

A value that holds none of the characters at which one ends can stand without quotes, and means
itself, whatever else those characters mean: arrows, brackets, marks of comparison. There is one
exception. Blanks and comments can stand before every lexeme, so a percent sign at the start of a
value begins a comment, which takes the rest of the line. `read_bare` says that such a request is
refused, that every other one is read, and that in quotes all values mean themselves. -/
namespace Treebank.Request
open Text

/-- No character of the value ends it. -/
def IsBare (value : String) : Prop :=
  value.toList ≠ [] ∧ ∀ c ∈ value.toList, isValueStop c = false

instance (value : String) : Decidable (IsBare value) :=
  decidable_of_iff (value.toList ≠ [] ∧ value.toList.all fun c => !isValueStop c) (by simp [IsBare])

/-- The values of a condition with bars between them, up to the end of the request. -/
def valuesToEnd (spellings : List (List Char)) : List Char :=
  joinWith '|' spellings ++ "] \x7d".toList

/-- The text of a request for one node with one of some values, which are spelled as given. -/
def asking (feature : String) (spellings : List (List Char)) : List Char :=
  "pattern \x7b".toList ++ (" N [".toList ++ (feature.toList ++ '=' :: valuesToEnd spellings))

def askedFor (feature : String) (values : List String) : Request :=
  { pattern := [.node { name := "N", conditions := [.oneOf feature values false] }] }

/-! ### Comments to the end -/

theorem skipFrom_comment_end {text : List Char} (h : ∀ c ∈ text, isLineEnd c = false) :
    skipFrom true text = [] := by
  induction text with
  | nil => rfl
  | cons c rest ih =>
    obtain ⟨hc, hrest⟩ := List.forall_mem_cons.1 h
    rw [skipFrom, hc]
    exact ih hrest

/-- A comment in the last line takes all that is left. -/
theorem skip_comment {text : List Char} (h : ∀ c ∈ text, isLineEnd c = false) :
    skip ('%' :: text) = [] := by
  rw [skip, skipFrom, if_neg (by decide), if_pos rfl]
  exact skipFrom_comment_end h

theorem value_of_skip {text : List Char} (h : skip text = []) : value text = none := by
  rw [value, lexeme, h]
  rfl

/-! ### Single values -/

/-- A value is not gone on with. -/
def EndsValue (text : List Char) : Prop := Stops (fun c => !isValueStop c) text

theorem isLayout_of_not_stop {c : Char} (h : isValueStop c = false) : isLayout c = false := by
  simp only [isValueStop, Bool.or_eq_false_iff] at h
  tauto

theorem isLineEnd_of_not_stop {c : Char} (h : isValueStop c = false) : isLineEnd c = false := by
  have hlayout := isLayout_of_not_stop h
  simp only [isLayout, Bool.or_eq_false_iff] at hlayout
  simp only [isLineEnd, Bool.or_eq_false_iff]
  tauto

theorem ne_quote_of_not_stop {c : Char} (h : isValueStop c = false) : c ≠ '"' := by
  rintro rfl
  cases h

theorem value_bare {text : String} (h : IsBare text) (hstart : text.toList.head? ≠ some '%')
    {rest : List Char} (hrest : EndsValue rest) :
    value (text.toList ++ rest) = some (text, rest) := by
  obtain ⟨c, more, htext⟩ := List.exists_cons_of_ne_nil h.1
  have hc : isValueStop c = false := h.2 c (htext ▸ List.mem_cons_self)
  have hgap : isGapStart c = false := by
    rw [isGapStart, isLayout_of_not_stop hc, Bool.false_or, beq_eq_false_iff_ne]
    rintro rfl
    exact hstart (by rw [htext]; rfl)
  have hskip : skip (text.toList ++ rest) = text.toList ++ rest := by
    rw [htext, List.cons_append, skip_cons hgap]
  have hquoted : quoted (text.toList ++ rest) = none := by
    refine bind_of_none _ (exactly_of_head rfl ?_)
    rw [htext]
    exact fun heq => ne_quote_of_not_stop hc (Option.some.inj heq)
  have hrun : run (fun c => !isValueStop c) (text.toList ++ rest) = some (text.toList, rest) :=
    run_of_stops (fun d hd => by rw [h.2 d hd]; rfl) hrest h.1
  rw [value, lexeme, hskip, bind_of_some _ ((orElse_of_none hquoted).trans hrun),
    String.ofList_toList]
  rfl

theorem value_quote (text : String) (rest : List Char) :
    value (quote text ++ rest) = some (text, rest) :=
  value_readsAs text (.cons .nil .nil) trivial

/-! ### Values between bars -/

theorem symbol_bar (text : List Char) : symbol "|" ('|' :: text) = some ((), text) :=
  symbol_of_skip (skip_cons rfl text)

theorem endsValue_bar (text : List Char) : EndsValue ('|' :: text) := by
  rintro _ ⟨⟩
  rfl

section Bars
variable {spell : String → List Char} {values : List String} {rest : List Char}
  (hread : ∀ text ∈ values, ∀ after, EndsValue after →
    value (spell text ++ after) = some (text, after))
  (hrest : EndsValue rest) (hend : (do symbol "|"; value) rest = none)

include hrest in
theorem endsValue_flatMap (values : List String) :
    EndsValue (values.flatMap (fun text => '|' :: spell text) ++ rest) := by
  cases values with
  | nil => exact hrest
  | cons text values => exact endsValue_bar _

include hread hrest hend

theorem readsAll_flatMap :
    ReadsAll (do symbol "|"; value) values
      (values.flatMap (fun text => '|' :: spell text) ++ rest) rest := by
  induction values with
  | nil => exact .nil hend
  | cons text values ih =>
    obtain ⟨htext, hothers⟩ := List.forall_mem_cons.1 hread
    rw [List.flatMap_cons, List.append_assoc, List.cons_append]
    refine .cons ?_ ?_ (ih hothers)
    · rw [bind_of_some _ (symbol_bar _)]
      exact htext _ (endsValue_flatMap hrest values)
    · simp only [List.length_cons, List.length_append]
      omega

/-- Values with nothing but bars between them are read up to where no more can be. -/
theorem separated_value (hne : values ≠ []) :
    separated "|" value (joinWith '|' (values.map spell) ++ rest) = some (values, rest) := by
  cases values with
  | nil => exact absurd rfl hne
  | cons first others =>
    obtain ⟨hfirst, hothers⟩ := List.forall_mem_cons.1 hread
    rw [List.map_cons, joinWith_cons, List.flatMap_map, List.append_assoc]
    exact separated_of_readsAll (hfirst _ (endsValue_flatMap hrest others))
      (readsAll_flatMap hothers hrest hend)

end Bars

/-! ### The condition and its node -/

section Condition
variable {feature : String} (h : IsFeatureName feature)

include h

theorem featureName_equals (text : List Char) :
    featureName (feature.toList ++ '=' :: text) = some (feature, '=' :: text) := by
  refine featureName_readsAs h (.cons .nil .nil) ?_
  rintro _ ⟨⟩
  rfl

/-- After an equals sign it is the values that count. -/
theorem comparing_equals (text : List Char) :
    comparing (feature.toList ++ '=' :: text) =
      (separated "|" value text).map fun found => (.oneOf feature found.1 false, found.2) := by
  have hcomparison : comparison ('=' :: text) = some (false, text) :=
    comparison_readsAs false (.cons .nil .nil) trivial
  rw [comparing, bind_of_some _ (featureName_equals h text), bind_of_some _ hcomparison]
  show (separated "|" value text).bind _ = _
  rw [Option.map_eq_bind]
  rfl

theorem condition_of_values {values : List String} {text rest : List Char}
    (hvalues : separated "|" value text = some (values, rest)) :
    condition (feature.toList ++ '=' :: text) = some (.oneOf feature values false, rest) :=
  orElse_of_some (by rw [comparing_equals h, hvalues]; rfl)

/-- Without a value only the name of the feature is read. -/
theorem condition_of_no_value {text : List Char} (hnone : separated "|" value text = none) :
    condition (feature.toList ++ '=' :: text) = some (.present feature false, '=' :: text) := by
  have hcomparing : comparing (feature.toList ++ '=' :: text) = none := by
    rw [comparing_equals h, hnone]
    rfl
  have habsent : absent (feature.toList ++ '=' :: text) = none := by
    obtain ⟨c, word, hfeature, hc⟩ := h.exists_cons
    refine bind_of_none _ (symbol_of_next? rfl ?_)
    rw [hfeature, List.cons_append, next?, skip_cons (solid_isAlpha.isGapStart_eq_false hc)]
    rintro ⟨⟩
    cases hc
  rw [condition, orElse_of_none hcomparing, orElse_of_none habsent,
    bind_of_some _ (featureName_equals h text)]
  rfl

end Condition

/-- A node with one condition, which a bracket must end. -/
theorem clause_of_condition {asked : Condition} {text rest : List Char}
    (h : condition text = some (asked, rest)) (hcomma : next? rest ≠ some ',') :
    clause (" N [".toList ++ text) =
      (symbol "]" rest).map fun found =>
        (.node { name := "N", conditions := [asked] }, found.2) := by
  have hname : IsName "N" := ⟨'N', [], rfl, rfl, by simp⟩
  have hlaid : Laid text ["N".toList, ['[']] (" N [".toList ++ text) :=
    .cons (.blank rfl .nil) (.cons (.blank rfl .nil) .nil)
  obtain ⟨middle, hident, -, hmiddle⟩ := ident_before hname hlaid rfl rfl
  have hopen : symbol "[" middle = some ((), text) :=
    symbol_readsAs "[" ⟨'[', _, rfl, rfl⟩ hmiddle trivial
  have hlist : optional (separated "," condition) text = some (some [asked], rest) :=
    optional_of_some (separated_of_readsAll h (.nil (bind_of_none _ (symbol_of_next? rfl hcomma))))
  have hrelation : relation (" N [".toList ++ text) = none :=
    relation_of_next? hname hlaid rfl rfl (by decide) (by decide)
  have horder : order (" N [".toList ++ text) = none := order_of_next? hname hlaid rfl rfl rfl
  rw [clause, orElse_of_none (bind_of_none _ hrelation), orElse_of_none (bind_of_none _ horder)]
  show (node (" N [".toList ++ text)).bind _ = _
  rw [node, bind_of_some _ hident, bind_of_some _ hopen, bind_of_some _ hlist]
  show ((symbol "]" rest).bind _).bind _ = _
  cases symbol "]" rest <;> rfl

/-! ### The request -/

theorem block_pattern (text : List Char) :
    block "pattern" ("pattern \x7b".toList ++ text) =
      (do let clauses ← many clauseOrSeparator; symbol "\x7d"; return clauses.filterMap id :
        Reads (List Clause)) text := by
  have hlaid : Laid text ["pattern".toList, ['\x7b']] ("pattern \x7b".toList ++ text) :=
    .cons .nil (.cons (.blank rfl .nil) .nil)
  obtain ⟨middle, hkeyword, hopen⟩ := hlaid.exists_of_cons
  rw [block, bind_of_some _ (symbol_readsAs "pattern" ⟨_, _, rfl, rfl⟩ hkeyword trivial),
    bind_of_some _ (symbol_readsAs "\x7b" ⟨_, _, rfl, rfl⟩ hopen trivial)]

theorem read_of_clause {asked : Clause} {text : List Char}
    (h : clause text = some (asked, " \x7d".toList)) (hlength : 2 < text.length) :
    Request.read ("pattern \x7b".toList ++ text) = some { pattern := [asked] } := by
  have hclauses : many clauseOrSeparator text = some ([some asked], " \x7d".toList) :=
    many_of_readsAll (.cons (clauseOrSeparator_of_clause h) hlength
      (.nil (clauseOrSeparator_of_next? rfl)))
  have hblock : block "pattern" ("pattern \x7b".toList ++ text) = some ([asked], []) := by
    rw [block_pattern, bind_of_some _ hclauses]
    rfl
  rw [Request.read, request, bind_of_some _ hblock]
  rfl

/-- Where a name comes next, the block goes on with a clause. -/
theorem read_of_no_clause {text : List Char} (h : clause text = none)
    (hnext : next? text = some 'N') : Request.read ("pattern \x7b".toList ++ text) = none := by
  have hmark : ∀ {mark : String} {c : Char}, mark.toList = [c] → c ≠ 'N' →
      symbol mark text = none := by
    intro mark c hmark hc
    refine symbol_of_next? hmark ?_
    rw [hnext]
    exact fun heq => hc (Option.some.inj heq).symm
  have hitem : clauseOrSeparator text = none := by
    rw [clauseOrSeparator, orElse_of_none (bind_of_none _ h)]
    exact bind_of_none _ (hmark rfl (by decide))
  have hblock : block "pattern" ("pattern \x7b".toList ++ text) = none := by
    rw [block_pattern, bind_of_some _ (many_of_readsAll (.nil hitem))]
    exact bind_of_none _ (hmark rfl (by decide))
  rw [Request.read, request, bind_of_none _ hblock]

/-- What is not read up to its bracket is no condition of a node. -/
theorem read_of_condition {asked : Condition} {text rest : List Char} {c : Char}
    (h : condition text = some (asked, rest)) (hnext : next? rest = some c)
    (hc : c ≠ ',' ∧ c ≠ ']') :
    Request.read ("pattern \x7b".toList ++ (" N [".toList ++ text)) = none := by
  have hclause := clause_of_condition h
    (by rw [hnext]; exact fun heq => hc.1 (Option.some.inj heq))
  have hbracket : symbol "]" rest = none :=
    symbol_of_next? rfl (by rw [hnext]; exact fun heq => hc.2 (Option.some.inj heq))
  rw [hbracket] at hclause
  exact read_of_no_clause hclause rfl

/-- From a value that begins with a percent sign on, all is a comment. -/
theorem skip_valuesToEnd {comment : String} {after : List String}
    (hbare : ∀ text ∈ comment :: after, IsBare text) (hcomment : comment.toList.head? = some '%') :
    skip (valuesToEnd ((comment :: after).map String.toList)) = [] := by
  have hline : ∀ c ∈ valuesToEnd ((comment :: after).map String.toList), isLineEnd c = false := by
    intro c hc
    rcases List.mem_append.1 hc with hc | hc
    · rcases mem_of_mem_joinWith hc with rfl | ⟨part, hpart, hc⟩
      · rfl
      · obtain ⟨text, htext, rfl⟩ := List.mem_map.1 hpart
        exact isLineEnd_of_not_stop ((hbare text htext).2 c hc)
    · exact (show ∀ c ∈ "] \x7d".toList, isLineEnd c = false by simp [isLineEnd]) c hc
  obtain ⟨more, hmore⟩ := List.head?_eq_some_iff.1 hcomment
  rw [valuesToEnd, List.map_cons, joinWith_cons, hmore, List.cons_append, List.cons_append]
    at hline ⊢
  exact skip_comment fun c hc => hline c (List.mem_cons_of_mem _ hc)

theorem valuesToEnd_append {before after : List (List Char)} (h : before ≠ [])
    (hafter : after ≠ []) :
    valuesToEnd (before ++ after) = joinWith '|' before ++ '|' :: valuesToEnd after := by
  rw [valuesToEnd, joinWith_append h hafter, List.append_assoc, List.cons_append, ← valuesToEnd]

section Values
variable {feature : String} (hfeature : IsFeatureName feature) {values : List String}

include hfeature

/-- Values that are read one by one are read between their bars. -/
theorem read_asking {spell : String → List Char} (hvalues : values ≠ [])
    (hread : ∀ text ∈ values, ∀ rest, EndsValue rest →
      value (spell text ++ rest) = some (text, rest)) :
    Request.read (asking feature (values.map spell)) = some (askedFor feature values) := by
  have hend : EndsValue "] \x7d".toList := by
    rintro _ ⟨⟩
    rfl
  have hbar : (do symbol "|"; value) "] \x7d".toList = none :=
    bind_of_none _ (symbol_of_next? rfl (by decide))
  have hlist := separated_value hread hend hbar hvalues
  have hclause := clause_of_condition (condition_of_values hfeature hlist) (by decide)
  have hbracket : symbol "]" "] \x7d".toList = some ((), " \x7d".toList) :=
    symbol_of_skip (show skip _ = "]".toList ++ " \x7d".toList from rfl)
  rw [hbracket] at hclause
  refine read_of_clause hclause ?_
  rw [List.length_append]
  exact Nat.lt_add_right _ (by decide)

theorem read_asking_comment {before after : List String} {comment : String}
    (hbare : ∀ text ∈ before ++ comment :: after, IsBare text)
    (hbefore : ∀ text ∈ before, text.toList.head? ≠ some '%')
    (hcomment : comment.toList.head? = some '%') :
    Request.read (asking feature ((before ++ comment :: after).map String.toList)) = none := by
  have hvalue : value (valuesToEnd ((comment :: after).map String.toList)) = none :=
    value_of_skip (skip_valuesToEnd (fun text htext => hbare text (List.mem_append_right _ htext))
      hcomment)
  by_cases hnone : before = []
  · -- the first value is missing, so the name of the feature is a condition of its own
    have hlist : separated "|" value (valuesToEnd ((comment :: after).map String.toList)) = none :=
      bind_of_none _ hvalue
    rw [hnone]
    exact read_of_condition (condition_of_no_value hfeature hlist) rfl (by decide)
  · -- the values before the comment are read, and the bar after them is in the way
    have hend : (do symbol "|"; value)
        ('|' :: valuesToEnd ((comment :: after).map String.toList)) = none := by
      rw [bind_of_some _ (symbol_bar _), hvalue]
    have hread : ∀ text ∈ before, ∀ rest, EndsValue rest →
        value (text.toList ++ rest) = some (text, rest) := fun text htext _ hrest =>
      value_bare (hbare text (List.mem_append_left _ htext)) (hbefore text htext) hrest
    have hlist := separated_value hread (endsValue_bar _) hend hnone
    have hvalues : valuesToEnd ((before ++ comment :: after).map String.toList) =
        joinWith '|' (before.map String.toList) ++
          '|' :: valuesToEnd ((comment :: after).map String.toList) := by
      rw [List.map_append, valuesToEnd_append (by simpa using hnone) (by simp)]
    unfold asking
    rw [hvalues]
    exact read_of_condition (condition_of_values hfeature hlist) rfl (by decide)

end Values

/-- **Values without quotes mean themselves, save for comments**: with no value that begins with a
percent sign, the request is read as it is when its values are quoted; with one, it is refused. -/
theorem read_bare {feature : String} (hfeature : IsFeatureName feature) {values : List String}
    (hvalues : values ≠ []) (hbare : ∀ text ∈ values, IsBare text) :
    Request.read (asking feature (values.map String.toList)) =
      (if ∃ text ∈ values, text.toList.head? = some '%' then none
        else some (askedFor feature values)) ∧
    Request.read (asking feature (values.map quote)) = some (askedFor feature values) := by
  refine ⟨?_, read_asking hfeature hvalues fun text _ rest _ => value_quote text rest⟩
  split
  · next hcomment =>
    -- what comes before the first of the comments is read value by value
    have hsome : (values.find? fun text => text.toList.head? = some '%').isSome :=
      List.find?_isSome.2 (by simpa using hcomment)
    obtain ⟨first, hfirst⟩ := Option.isSome_iff_exists.1 hsome
    obtain ⟨hpercent, before, after, rfl, hbefore⟩ := List.find?_eq_some_iff_append.1 hfirst
    exact read_asking_comment hfeature hbare (by simpa using hbefore) (by simpa using hpercent)
  · next hplain =>
    refine read_asking hfeature hvalues fun text htext rest hrest => ?_
    exact value_bare (hbare text htext) (fun hstart => hplain ⟨text, htext, hstart⟩) hrest

/-- Marks that mean something elsewhere, a backslash and a percent sign inside stand for themselves;
with the percent sign first, the same value is a comment. -/
theorem read_bare_of_three :
    let feature := "Form[a_1]"
    let values := ["=<>[", "->\\n", "5%"]
    let comment := ["=<>[", "->\\n", "%5"]
    IsFeatureName feature ∧ (∀ text ∈ values ++ comment, IsBare text) ∧
      asking feature (values.map String.toList) =
        "pattern \x7b N [Form[a_1]==<>[|->\\n|5%] \x7d".toList ∧
      Request.read (asking feature (values.map String.toList)) = some (askedFor feature values) ∧
      Request.read (asking feature (values.map quote)) = some (askedFor feature values) ∧
      Request.read (asking feature (comment.map String.toList)) = none := by
  intro feature values comment
  have hfeature : IsFeatureName feature :=
    ⟨'F', "orm".toList, "[a_1]".toList, by decide, rfl, List.all_eq_true.1 rfl,
      .inr ⟨"a_1".toList, by decide, by decide, List.all_eq_true.1 rfl⟩⟩
  have hbare : ∀ text ∈ values ++ comment, IsBare text := by decide
  obtain ⟨hread, hquoted⟩ := read_bare hfeature (show values ≠ [] by decide)
    fun text htext => hbare text (List.mem_append_left _ htext)
  obtain ⟨hrefused, -⟩ := read_bare hfeature (show comment ≠ [] by decide)
    fun text htext => hbare text (List.mem_append_right _ htext)
  rw [if_neg (by decide)] at hread
  rw [if_pos (by decide)] at hrefused
  exact ⟨hfeature, hbare, by decide, hread, hquoted, hrefused⟩

/-- A value with no character that ends one, which is not read: it begins a comment. -/
theorem bare_value_is_comment :
    IsFeatureName "form" ∧ IsBare "%" ∧
      asking "form" ["%".toList] = "pattern \x7b N [form=%] \x7d".toList ∧
      Request.read (asking "form" ["%".toList]) = none ∧
      Request.read (asking "form" [quote "%"]) = some (askedFor "form" ["%"]) := by
  refine ⟨⟨'f', "orm".toList, [], rfl, rfl, List.all_eq_true.1 rfl, .inl rfl⟩, by decide, rfl,
    ?_, ?_⟩
  · decide +kernel
  · decide +kernel

end Treebank.Request
