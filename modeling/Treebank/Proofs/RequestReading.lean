import Treebank.Proofs.Lexemes

/-! Requests read from their spellings.

The forms of a clause all begin with a name, and the lexeme after it tells them apart, so the
forms that are tried before the right one fail there. A clause ends where its last name does,
which a gap, a semicolon or the end of the block brings about. So a valid request is read from
each of its spellings, and only valid requests are read (`read_of_spells`). -/
namespace Treebank.Request

/-! ### Conditions -/

theorem comparison_readsAs (negated : Bool) :
    ReadsAs comparison negated [if negated then ['<', '>'] else ['=']] fun _ => True := by
  cases negated with
  | true => exact (symbol_readsAs "<>" ⟨'<', _, rfl, rfl⟩).map.orElse_left
  | false =>
    refine ReadsAs.orElse_right (fun text rest hlaid _ => bind_of_none _ ?_)
      (symbol_readsAs "=" ⟨'=', _, rfl, rfl⟩).map
    exact symbol_of_next? rfl (by rw [hlaid.next?_eq rfl]; decide)

theorem comparison_of_next? {text : List Char} (hless : next? text ≠ some '<')
    (hequals : next? text ≠ some '=') : comparison text = none := by
  rw [comparison, orElse_of_none (bind_of_none _ (symbol_of_next? rfl hless))]
  exact bind_of_none _ (symbol_of_next? rfl hequals)

/-- After a condition comes another one or the end of the conditions. -/
def EndsCondition (text : List Char) : Prop := next? text = some ',' ∨ next? text = some ']'

theorem featureName_before {feature : String} (h : IsFeatureName feature) :
    ReadsAs featureName feature [feature.toList] EndsCondition := by
  intro text rest hlaid hends
  refine featureName_readsAs h hlaid ?_
  rcases hends with hcomma | hbracket
  · exact stops_of_next? solid_continuesFeature hcomma rfl
  · exact stops_of_next? solid_continuesFeature hbracket rfl

theorem comparing_readsAs {feature : String} (h : IsFeatureName feature) {values : List String}
    (hvalues : values ≠ []) (negated : Bool) :
    ReadsAs comparing (.oneOf feature values negated)
      (conditionLexemes (.oneOf feature values negated)) EndsCondition := by
  have hlist : ReadsAs (separated "|" value) values
      (joined '|' (values.map fun value => [quote value])) EndsCondition := by
    intro text rest hlaid hends
    refine separated_readsAs "|" rfl rfl (fun _ _ _ _ => trivial) hvalues
      (fun text _ => value_readsAs text) hlaid ⟨trivial, ?_⟩
    rcases hends with hends | hends <;> rw [hends] <;> decide
  have hcompare : ReadsAs (comparison >>= fun negated =>
        (separated "|" value >>= fun values => pure (Condition.oneOf feature values negated)))
      (.oneOf feature values negated)
      ([if negated then ['<', '>'] else ['=']] ++
        joined '|' (values.map fun value => [quote value])) EndsCondition :=
    (comparison_readsAs negated).bind hlist.map fun _ _ _ _ => trivial
  refine (featureName_readsAs h).bind hcompare fun text rest hlaid _ => ?_
  cases negated with
  | true => exact hlaid.stops solid_continuesFeature rfl rfl
  | false => exact hlaid.stops solid_continuesFeature rfl rfl

theorem absent_readsAs {feature : String} (h : IsFeatureName feature) :
    ReadsAs absent (.present feature true) (conditionLexemes (.present feature true))
      EndsCondition :=
  (symbol_readsAs "!" ⟨'!', _, rfl, rfl⟩).bind (featureName_before h).map
    fun _ _ _ _ => trivial

theorem comparing_of_next? {text : List Char} {c : Char} (h : next? text = some c)
    (hc : c.isAlpha = false) : comparing text = none :=
  bind_of_none _ (featureName_of_next? h hc)

theorem condition_readsAs {asked : Condition} (h : IsCondition asked) :
    ReadsAs condition asked (conditionLexemes asked) EndsCondition := by
  cases h with
  | @present feature negated hfeature =>
    cases negated with
    | false =>
      have hcomparing : ∀ ⦃text rest⦄, Laid rest [feature.toList] text → EndsCondition rest →
          comparing text = none := by
        intro text rest hlaid hends
        rw [comparing, bind_of_some _ (featureName_before hfeature hlaid hends)]
        refine bind_of_none _ (comparison_of_next? ?_ ?_) <;>
          rcases hends with hends | hends <;> rw [hends] <;> decide
      have habsent : ∀ ⦃text rest⦄, Laid rest [feature.toList] text → EndsCondition rest →
          absent text = none := by
        intro text rest hlaid _
        obtain ⟨c, word, hspelling, hc⟩ := hfeature.exists_cons
        rw [hspelling] at hlaid
        refine bind_of_none _ (symbol_of_next? rfl ?_)
        rw [hlaid.next?_eq (solid_isAlpha.isGapStart_eq_false hc)]
        rintro heq
        cases heq
        cases hc
      exact .orElse_right hcomparing (.orElse_right habsent (featureName_before hfeature).map)
    | true =>
      exact ReadsAs.orElse_right
        (fun text rest hlaid _ => comparing_of_next? (hlaid.next?_eq rfl) rfl)
        (absent_readsAs hfeature).orElse_left
  | oneOf hfeature hvalues => exact (comparing_readsAs hfeature hvalues _).orElse_left

/-- Where no condition begins. -/
theorem condition_of_next? {text : List Char} (h : next? text = some ']') :
    condition text = none := by
  rw [condition, orElse_of_none (comparing_of_next? h rfl), orElse_of_none]
  · exact bind_of_none _ (featureName_of_next? h rfl)
  · exact bind_of_none _ (symbol_of_next? rfl (by rw [h]; decide))

/-! ### Nodes -/

theorem conditions_readsAs {conditions : List Condition}
    (h : ∀ asked ∈ conditions, IsCondition asked) :
    ∃ found, found.getD [] = conditions ∧
      ReadsAs (optional (separated "," condition)) found
        (joined ',' (conditions.map conditionLexemes)) fun rest => next? rest = some ']' := by
  by_cases hnone : conditions = []
  · refine ⟨none, hnone.symm, fun text rest hlaid hrest => ?_⟩
    rw [hnone] at hlaid
    cases hlaid
    exact optional_of_none (bind_of_none _ (condition_of_next? hrest))
  · refine ⟨some conditions, rfl, fun text rest hlaid hrest => optional_of_some ?_⟩
    refine separated_readsAs "," rfl rfl (fun _ _ _ hcomma => .inl (hcomma.next?_eq rfl))
      hnone (fun asked hasked => condition_readsAs (h asked hasked)) hlaid ⟨.inr hrest, ?_⟩
    rw [hrest]
    decide

/-- A name is read up to a lexeme that does not go on with it. -/
theorem ident_before {name : String} (h : IsName name) {c : Char} {more : List Char}
    {lexemes : List (List Char)} {text rest : List Char}
    (hlaid : Laid rest (name.toList :: (c :: more) :: lexemes) text) (hgap : isGapStart c = false)
    (hc : isNameChar c = false) :
    ∃ middle, ident text = some (name, middle) ∧ next? middle = some c ∧
      Laid rest ((c :: more) :: lexemes) middle := by
  obtain ⟨middle, hname, hmiddle⟩ := hlaid.exists_of_cons
  have hnext := hmiddle.next?_eq hgap
  exact ⟨middle, ident_readsAs h hname (stops_of_next? solid_isNameChar hnext hc), hnext, hmiddle⟩

theorem node_readsAs {asked : NodeClause} (hname : IsName asked.name)
    (hconditions : ∀ condition ∈ asked.conditions, IsCondition condition) :
    ReadsAs node asked (nodeLexemes asked) fun _ => True := by
  obtain ⟨found, hfound, hreads⟩ := conditions_readsAs hconditions
  let close (conditions : Option (List Condition)) : Reads NodeClause := do
    symbol "]"
    return { name := asked.name, conditions := conditions.getD [] }
  have hclose : ReadsAs (close found) asked [[']']] fun _ => True := by
    show ReadsAs (symbol "]" >>= fun _ => pure { name := asked.name, conditions := found.getD [] })
      asked [[']']] fun _ => True
    rw [hfound]
    exact (symbol_readsAs "]" ⟨']', _, rfl, rfl⟩).map
  have hlist := hreads.bind (f := close) hclose fun _ _ hlaid _ => hlaid.next?_eq rfl
  have hopen := (symbol_readsAs "[" ⟨'[', _, rfl, rfl⟩).bind
    (f := fun _ => optional (separated "," condition) >>= close) hlist fun _ _ _ _ => trivial
  exact (ident_readsAs hname).bind hopen fun _ _ hlaid _ => hlaid.stops solid_isNameChar rfl rfl

/-! ### Relations -/

theorem labels_readsAs {labels : List String} (hne : labels ≠ [])
    (h : ∀ name ∈ labels, IsLabel name) :
    ReadsAs (separated "|" label) labels (joined '|' (labels.map fun name => [name.toList]))
      fun rest => next? rest = some ']' := by
  intro text rest hlaid hrest
  refine separated_readsAs "|" rfl rfl (fun _ _ _ hbar => hbar.stops solid_isLabelChar rfl rfl) hne
    (fun name hname => label_readsAs (h name hname)) hlaid
    ⟨stops_of_next? solid_isLabelChar hrest rfl, ?_⟩
  rw [hrest]
  decide

/-- Labels do not begin with the mark that excludes them. -/
theorem next?_labels {labels : List String} (hne : labels ≠ []) (h : ∀ name ∈ labels, IsLabel name)
    {rest text : List Char} {lexemes : List (List Char)}
    (hlaid : Laid rest (joined '|' (labels.map fun name => [name.toList]) ++ lexemes) text) :
    next? text ≠ some '^' := by
  obtain ⟨first, others, rfl⟩ := List.exists_cons_of_ne_nil hne
  obtain ⟨c, more, hfirst, hlabel, hgap⟩ := (h first List.mem_cons_self).exists_cons
  rw [List.map_cons, joined_cons, hfirst] at hlaid
  rw [Laid.next?_eq hlaid hgap]
  rintro ⟨⟩
  cases hlabel

theorem labelledArrow_readsAs {labels : List String} (hne : labels ≠ [])
    (h : ∀ name ∈ labels, IsLabel name) (negated : Bool) :
    ReadsAs labelledArrow (labels, negated) (arrowLexemes labels negated) fun _ => True := by
  let close (labels : List String) (negation : Option Unit) : Reads (List String × Bool) := do
    symbol "]->"
    return (labels, negation.isSome)
  have hnegation : ∃ found : Option Unit, found.isSome = negated ∧
      ReadsAs (optional (symbol "^")) found (if negated then [['^']] else [])
        fun rest => next? rest ≠ some '^' := by
    cases negated with
    | true =>
      refine ⟨some (), rfl, fun text rest hlaid _ => optional_of_some ?_⟩
      exact symbol_readsAs "^" ⟨'^', _, rfl, rfl⟩ hlaid trivial
    | false =>
      refine ⟨none, rfl, fun text rest hlaid hrest => ?_⟩
      cases hlaid
      exact optional_of_none (symbol_of_next? rfl hrest)
  obtain ⟨found, hfound, hreads⟩ := hnegation
  have hclose : ReadsAs (close labels found) (labels, negated) [[']', '-', '>']] fun _ => True := by
    rw [← hfound]
    exact (symbol_readsAs "]->" ⟨']', _, rfl, rfl⟩).map
  have hlabels := (labels_readsAs hne h).bind (f := (close · found)) hclose
    fun _ _ hlaid _ => hlaid.next?_eq rfl
  have hmark := hreads.bind
    (f := fun negation => separated "|" label >>= fun labels => close labels negation) hlabels
    fun _ _ hlaid _ => next?_labels hne h hlaid
  rw [arrowLexemes, if_neg hne]
  exact (symbol_readsAs "-[" ⟨'-', _, rfl, rfl⟩).bind hmark fun _ _ _ _ => trivial

theorem arrow_readsAs {labels : List String} {negated : Bool} (h : ∀ name ∈ labels, IsLabel name)
    (hnegated : labels = [] → negated = false) :
    ReadsAs arrow (labels, negated) (arrowLexemes labels negated) fun _ => True := by
  by_cases hne : labels = []
  · rw [hne, hnegated hne]
    refine ReadsAs.orElse_right (fun text rest hlaid _ => bind_of_none _ ?_)
      (symbol_readsAs "->" ⟨'-', _, rfl, rfl⟩).map
    obtain ⟨after, hskip, -⟩ := hlaid.skip_eq ⟨'-', _, rfl, rfl⟩
    refine symbol_of_not_prefix ?_
    rw [hskip]
    simp
  · exact (labelledArrow_readsAs hne h negated).orElse_left

theorem arrow_of_next? {text : List Char} (h : next? text ≠ some '-') : arrow text = none := by
  have hlabelled : labelledArrow text = none := bind_of_none _ (symbol_of_next? rfl h)
  rw [arrow, orElse_of_none hlabelled]
  exact bind_of_none _ (symbol_of_next? rfl h)

/-- The name before a relation, if there is one; if not, none can be read there. -/
theorem relationName_readsAs {name? : Option String} (h : ∀ name ∈ name?, IsName name) :
    ReadsAs (optional relationName) name? (nameLexemes name?)
      fun rest => name? = none → relationName rest = none := by
  cases name? with
  | none =>
    intro text rest hlaid hrest
    cases hlaid
    exact optional_of_none (hrest rfl)
  | some name =>
    intro text rest hlaid _
    obtain ⟨middle, hident, -, hmiddle⟩ := ident_before (h name rfl) hlaid rfl rfl
    refine optional_of_some ?_
    rw [relationName, bind_of_some _ hident,
      bind_of_some _ (symbol_readsAs ":" ⟨':', _, rfl, rfl⟩ hmiddle trivial)]
    rfl

/-- A name without a colon after it is no name of a relation. -/
theorem relationName_of_next? {name : String} (h : IsName name) {c : Char} {more : List Char}
    {lexemes : List (List Char)} {text rest : List Char}
    (hlaid : Laid rest (name.toList :: (c :: more) :: lexemes) text) (hgap : isGapStart c = false)
    (hc : isNameChar c = false) (hcolon : c ≠ ':') : relationName text = none := by
  obtain ⟨middle, hident, hnext, -⟩ := ident_before h hlaid hgap hc
  rw [relationName, bind_of_some _ hident]
  refine bind_of_none _ (symbol_of_next? rfl ?_)
  rw [hnext]
  exact fun heq => hcolon (Option.some.inj heq)

theorem exists_arrowLexemes (labels : List String) (negated : Bool) :
    ∃ more lexemes, arrowLexemes labels negated = ('-' :: more) :: lexemes := by
  unfold arrowLexemes
  split
  · exact ⟨_, _, rfl⟩
  · exact ⟨_, _, rfl⟩

theorem relation_readsAs {asked : RelationClause} (h : IsRelation asked) :
    ReadsAs relation asked (relationLexemes asked) (Stops isNameChar) := by
  obtain ⟨more, lexemes, harrowLexemes⟩ := exists_arrowLexemes asked.labels asked.negated
  let finish (name? : Option String) (head : String) (arrow : List String × Bool) :
      Reads RelationClause := do
    return { name?, head, dep := ← ident, labels := arrow.1, negated := arrow.2 }
  have hdep : ReadsAs (finish asked.name? asked.head (asked.labels, asked.negated)) asked
      [asked.dep.toList] (Stops isNameChar) := (ident_readsAs h.dep).map
  have harrow := (arrow_readsAs h.labels h.negated).bind (f := finish asked.name? asked.head) hdep
    fun _ _ _ _ => trivial
  have hhead := (ident_readsAs h.head).bind
    (f := fun head => arrow >>= finish asked.name? head) harrow fun text rest hlaid _ => by
      rw [harrowLexemes] at hlaid
      exact Laid.stops solid_isNameChar hlaid rfl rfl
  refine (relationName_readsAs h.name).bind hhead fun text rest hlaid _ _ => ?_
  rw [harrowLexemes] at hlaid
  exact relationName_of_next? h.head hlaid rfl rfl (by decide)

/-- Without an arrow after its first name there is no relation. -/
theorem relation_of_next? {name : String} (h : IsName name) {c : Char} {more : List Char}
    {lexemes : List (List Char)} {text rest : List Char}
    (hlaid : Laid rest (name.toList :: (c :: more) :: lexemes) text) (hgap : isGapStart c = false)
    (hc : isNameChar c = false) (hcolon : c ≠ ':') (harrow : c ≠ '-') : relation text = none := by
  obtain ⟨middle, hident, hnext, -⟩ := ident_before h hlaid hgap hc
  rw [relation, bind_of_some _ (optional_of_none (relationName_of_next? h hlaid hgap hc hcolon)),
    bind_of_some _ hident]
  refine bind_of_none _ (arrow_of_next? ?_)
  rw [hnext]
  exact fun heq => harrow (Option.some.inj heq)

/-! ### Orders -/

def isAngle (c : Char) : Bool := c == '<' || c == '>'

theorem solid_isAngle : Solid isAngle := solid_of_all rfl

theorem isAngle_cases {c : Char} (h : isAngle c = true) : c = '<' ∨ c = '>' := by
  simpa [isAngle] using h

/-- A mark of two angles cannot be read where there is only one. -/
theorem symbol_of_one_angle {mark : String} {c : Char} (hmark : mark.toList = [c, c])
    (hc : isAngle c = true) {text rest : List Char} (hskip : skip text = c :: rest)
    (hrest : Stops isAngle rest) : symbol mark text = none := by
  refine symbol_of_not_prefix fun hprefix => ?_
  obtain ⟨after, hafter⟩ := hprefix
  rw [hmark, hskip] at hafter
  obtain ⟨-, rfl⟩ := List.cons.inj hafter
  have hstops := hrest c rfl
  rw [hc] at hstops
  cases hstops

theorem symbol_of_skip_cons {mark : String} {c d : Char} {more : List Char}
    (hmark : mark.toList = c :: more) {text rest : List Char} (hskip : skip text = d :: rest)
    (hne : d ≠ c) : symbol mark text = none := by
  refine symbol_of_next? hmark ?_
  rw [next?, hskip]
  exact fun heq => hne (Option.some.inj heq)

theorem orderOp_readsAs (op : OrderOp) :
    ReadsAs orderOp op [op.symbol.toList] (Stops isAngle) := by
  intro text rest hlaid hrest
  have hlexeme : IsLexeme op.symbol.toList := by
    cases op <;> exact ⟨_, _, rfl, rfl⟩
  obtain ⟨after, hskip, hafter⟩ := hlaid.skip_eq hlexeme
  cases hafter
  have hread := symbol_of_skip hskip
  cases op with
  | before => exact orElse_of_some (bind_of_some _ hread)
  | after =>
    rw [orderOp, orElse_of_none (bind_of_none _ (symbol_of_skip_cons rfl hskip (by decide)))]
    exact orElse_of_some (bind_of_some _ hread)
  | justBefore =>
    rw [orderOp, orElse_of_none (bind_of_none _ (symbol_of_one_angle rfl rfl hskip hrest)),
      orElse_of_none (bind_of_none _ (symbol_of_skip_cons rfl hskip (by decide)))]
    exact orElse_of_some (bind_of_some _ hread)
  | justAfter =>
    rw [orderOp, orElse_of_none (bind_of_none _ (symbol_of_skip_cons rfl hskip (by decide))),
      orElse_of_none (bind_of_none _ (symbol_of_one_angle rfl rfl hskip hrest)),
      orElse_of_none (bind_of_none _ (symbol_of_skip_cons rfl hskip (by decide)))]
    exact bind_of_some _ hread

theorem orderOp_of_next? {text : List Char} (hless : next? text ≠ some '<')
    (hgreater : next? text ≠ some '>') : orderOp text = none := by
  rw [orderOp, orElse_of_none (bind_of_none _ (symbol_of_next? rfl hless)),
    orElse_of_none (bind_of_none _ (symbol_of_next? rfl hgreater)),
    orElse_of_none (bind_of_none _ (symbol_of_next? rfl hless))]
  exact bind_of_none _ (symbol_of_next? rfl hgreater)

theorem exists_symbol (op : OrderOp) :
    ∃ c more, op.symbol.toList = c :: more ∧ isGapStart c = false ∧ isNameChar c = false ∧
      c ≠ ':' ∧ c ≠ '-' := by
  cases op <;> exact ⟨_, _, rfl, rfl, rfl, by decide, by decide⟩

theorem order_readsAs {asked : OrderClause} (hleft : IsName asked.left)
    (hright : IsName asked.right) :
    ReadsAs order asked (orderLexemes asked) (Stops isNameChar) := by
  let finish (left : String) (op : OrderOp) : Reads OrderClause := do
    return { left, op, right := ← ident }
  have hlast : ReadsAs (finish asked.left asked.op) asked [asked.right.toList]
      (Stops isNameChar) := (ident_readsAs hright).map
  have hop := (orderOp_readsAs asked.op).bind (f := finish asked.left) hlast
    fun text rest hlaid _ => by
      obtain ⟨c, more, hname, hc, hgap⟩ := hright.exists_cons
      rw [hname] at hlaid
      refine hlaid.stops solid_isAngle hgap ?_
      by_contra hangle
      rw [Bool.not_eq_false] at hangle
      rcases isAngle_cases hangle with rfl | rfl <;> cases hc
  refine (ident_readsAs hleft).bind (f := fun left => orderOp >>= finish left) hop
    fun text rest hlaid _ => ?_
  obtain ⟨c, more, hsymbol, hgap, hc, -⟩ := exists_symbol asked.op
  rw [hsymbol] at hlaid
  exact Laid.stops solid_isNameChar hlaid hgap hc

/-- Without an angle after its first name there is no order. -/
theorem order_of_next? {name : String} (h : IsName name) {c : Char} {more : List Char}
    {lexemes : List (List Char)} {text rest : List Char}
    (hlaid : Laid rest (name.toList :: (c :: more) :: lexemes) text) (hgap : isGapStart c = false)
    (hc : isNameChar c = false) (hangle : isAngle c = false) : order text = none := by
  obtain ⟨middle, hident, hnext, -⟩ := ident_before h hlaid hgap hc
  rw [order, bind_of_some _ hident]
  obtain ⟨hless, hgreater⟩ := Bool.or_eq_false_iff.1 hangle
  refine bind_of_none _ (orderOp_of_next? ?_ ?_) <;> rw [hnext]
  · exact fun heq => ne_of_beq_false hless (Option.some.inj heq)
  · exact fun heq => ne_of_beq_false hgreater (Option.some.inj heq)

/-! ### Clauses -/

/-- The lexeme after its first name tells of which form a clause is. -/
theorem clause_readsAs {asked : Clause} (h : IsClause asked) :
    ReadsAs clause asked (clauseLexemes asked) (Stops isNameChar) := by
  cases h with
  | @node asked hname hconditions =>
    have hread : ReadsAs node asked (nodeLexemes asked) (Stops isNameChar) :=
      fun _ _ hlaid _ => node_readsAs hname hconditions hlaid trivial
    refine .orElse_right (fun text rest hlaid _ => bind_of_none _ ?_)
      (.orElse_right (fun text rest hlaid _ => bind_of_none _ ?_) hread.map)
    · exact relation_of_next? hname hlaid rfl rfl (by decide) (by decide)
    · exact order_of_next? hname hlaid rfl rfl rfl
  | relation hrelation => exact (relation_readsAs hrelation).map.orElse_left
  | @order asked hleft hright =>
    refine .orElse_right (fun text rest hlaid _ => bind_of_none _ ?_)
      (order_readsAs hleft hright).map.orElse_left
    obtain ⟨c, more, hsymbol, hgap, hc, hcolon, harrow⟩ := exists_symbol asked.op
    change Laid rest [asked.left.toList, asked.op.symbol.toList, asked.right.toList] text at hlaid
    rw [hsymbol] at hlaid
    exact relation_of_next? hleft hlaid hgap hc hcolon harrow

/-- A clause begins with a name. -/
theorem exists_clauseLexemes {asked : Clause} (h : IsClause asked) :
    ∃ lexeme lexemes, clauseLexemes asked = lexeme :: lexemes ∧ IsLexeme lexeme := by
  have hlexeme : ∀ {name : String}, IsName name → IsLexeme name.toList := by
    intro name hname
    obtain ⟨c, rest, hspelling, -, hgap⟩ := hname.exists_cons
    exact ⟨c, rest, hspelling, hgap⟩
  cases h with
  | node hname _ => exact ⟨_, _, rfl, hlexeme hname⟩
  | @relation asked hrelation =>
    show ∃ lexeme lexemes, relationLexemes asked = lexeme :: lexemes ∧ IsLexeme lexeme
    rw [relationLexemes]
    cases hname : asked.name? with
    | none => exact ⟨_, _, rfl, hlexeme hrelation.head⟩
    | some name => exact ⟨_, _, rfl, hlexeme (hrelation.name name hname)⟩
  | order hleft _ => exact ⟨_, _, rfl, hlexeme hleft⟩

theorem clause_of_next? {text : List Char} {c : Char} (h : next? text = some c)
    (hc : isNameStart c = false) : clause text = none := by
  have hident : ident text = none := ident_of_next? h hc
  have hname : relationName text = none := bind_of_none _ hident
  have hrelation : relation text = none := by
    rw [relation, bind_of_some _ (optional_of_none hname)]
    exact bind_of_none _ hident
  have horder : order text = none := bind_of_none _ hident
  have hnode : node text = none := bind_of_none _ hident
  rw [clause, orElse_of_none (bind_of_none _ hrelation), orElse_of_none (bind_of_none _ horder)]
  exact bind_of_none _ hnode

/-! ### Blocks -/

theorem clauseOrSeparator_of_clause {text rest : List Char} {found : Clause}
    (h : clause text = some (found, rest)) : clauseOrSeparator text = some (some found, rest) :=
  orElse_of_some (bind_of_some _ h)

theorem clauseOrSeparator_of_semicolon {gap : List Char} (h : Gap gap) (text : List Char) :
    clauseOrSeparator (gap ++ ';' :: text) = some (none, text) := by
  have hskip : skip (gap ++ ';' :: text) = ';' :: text := by rw [skip_gap h, skip_cons rfl]
  have hclause : clause (gap ++ ';' :: text) = none :=
    clause_of_next? (by rw [next?, hskip]; rfl) rfl
  rw [clauseOrSeparator, orElse_of_none (bind_of_none _ hclause)]
  exact bind_of_some _ (symbol_of_skip hskip)

theorem clauseOrSeparator_of_next? {text : List Char} (h : next? text = some '\x7d') :
    clauseOrSeparator text = none := by
  have hclause : clause text = none := clause_of_next? h rfl
  rw [clauseOrSeparator, orElse_of_none (bind_of_none _ hclause)]
  exact bind_of_none _ (symbol_of_next? rfl (by rw [h]; decide))

namespace SpellsClauses
variable {rest text : List Char} {clauses : List Clause}

theorem length_le (h : SpellsClauses rest clauses text) : rest.length ≤ text.length := by
  induction h with
  | nil => exact Nat.le_refl _
  | semicolon _ _ ih =>
    rw [List.length_append, List.length_cons]
    omega
  | clause hlaid _ _ ih => exact ih.trans hlaid.length_le

/-- After the last clause its last name does not go on. -/
theorem stops (h : SpellsClauses rest [] text) (hrest : next? rest = some '\x7d') :
    Stops isNameChar text := by
  cases h with
  | nil => exact stops_of_next? solid_isNameChar hrest rfl
  | semicolon hgap _ =>
    refine stops_of_next? (c := ';') solid_isNameChar ?_ rfl
    rw [next?, skip_gap hgap, skip_cons rfl]
    rfl

/-- Clauses and semicolons are read one after the other, up to the end of their block. -/
theorem readsAll (h : SpellsClauses rest clauses text) (hvalid : ∀ asked ∈ clauses, IsClause asked)
    (hrest : next? rest = some '\x7d') :
    ∃ items, ReadsAll clauseOrSeparator items text rest ∧ items.filterMap id = clauses := by
  induction h with
  | nil => exact ⟨[], .nil (clauseOrSeparator_of_next? hrest), rfl⟩
  | @semicolon gap clauses text hgap _ ih =>
    obtain ⟨items, hitems, hclauses⟩ := ih hvalid
    refine ⟨none :: items, .cons (clauseOrSeparator_of_semicolon hgap text) ?_ hitems, hclauses⟩
    rw [List.length_append, List.length_cons]
    omega
  | @clause asked clauses text whole hlaid hends hclauses ih =>
    obtain ⟨hasked, hothers⟩ := List.forall_mem_cons.1 hvalid
    obtain ⟨items, hitems, hfound⟩ := ih hothers
    have hstops : Stops isNameChar text := by
      by_cases hlast : clauses = []
      · rw [hlast] at hclauses
        exact hclauses.stops hrest
      · intro c hc
        rcases Bool.or_eq_true_iff.1 (hends hlast c hc) with hgap | hsemicolon
        · exact solid_isNameChar c hgap
        · rw [eq_of_beq hsemicolon]
          rfl
    have hread := clause_readsAs hasked hlaid hstops
    obtain ⟨lexeme, lexemes, hlexemes, hlexeme⟩ := exists_clauseLexemes hasked
    rw [hlexemes] at hlaid
    refine ⟨some asked :: items, .cons (clauseOrSeparator_of_clause hread)
      (hlaid.length_lt hlexeme) hitems, ?_⟩
    rw [List.filterMap_cons, hfound]
    rfl

end SpellsClauses

section Block
variable {keyword : String} {rest text : List Char} {clauses : List Clause}

theorem SpellsBlock.length_lt (hkeyword : IsLexeme keyword.toList)
    (h : SpellsBlock keyword rest clauses text) : rest.length < text.length := by
  cases h with
  | mk hopen hclauses hclose =>
    have hlt := hopen.length_lt hkeyword
    have hle := hclauses.length_le.trans' hclose.length_le
    omega

theorem block_of_block (hkeyword : IsLexeme keyword.toList)
    (hvalid : ∀ asked ∈ clauses, IsClause asked) (h : SpellsBlock keyword rest clauses text) :
    block keyword text = some (clauses, rest) := by
  cases h with
  | @mk body close hopen hclauses hclose =>
    obtain ⟨items, hitems, hfound⟩ := hclauses.readsAll hvalid (hclose.next?_eq rfl)
    obtain ⟨middle, hfirst, hsecond⟩ := hopen.exists_of_cons
    have hbrace := symbol_readsAs "\x7b" ⟨_, _, rfl, rfl⟩ hsecond trivial
    have hend := symbol_readsAs "\x7d" ⟨_, _, rfl, rfl⟩ hclose trivial
    rw [block, bind_of_some _ (symbol_readsAs keyword hkeyword hfirst trivial),
      bind_of_some _ hbrace, bind_of_some _ (many_of_readsAll hitems), bind_of_some _ hend, hfound]
    rfl

end Block

theorem SpellsWithouts.readsAll {gap text : List Char} {withouts : List (List Clause)}
    (hgap : Gap gap) (h : SpellsWithouts gap withouts text)
    (hvalid : ∀ clauses ∈ withouts, ∀ asked ∈ clauses, IsClause asked) :
    ReadsAll (block "without") withouts text gap := by
  have hkeyword : IsLexeme "without".toList := ⟨_, _, rfl, rfl⟩
  induction h with
  | nil =>
    have hnone : next? gap = none := by
      rw [next?, ← List.append_nil gap, skip_gap hgap]
      rfl
    refine .nil (bind_of_none _ (symbol_of_next? rfl ?_))
    rw [hnone]
    decide
  | cons hblock _ ih =>
    obtain ⟨hclauses, hothers⟩ := List.forall_mem_cons.1 hvalid
    exact .cons (block_of_block hkeyword hclauses hblock) (hblock.length_lt hkeyword) (ih hothers)

/-! ### What is read is valid -/

theorem condition_gives : Gives IsCondition condition := by
  have hcomparing : Gives IsCondition comparing :=
    featureName_gives.bind fun feature hfeature => (Gives.any _).bind fun negated _ =>
      (Gives.separated "|" (Gives.any value)).bind fun values hvalues =>
        .pure (.oneOf hfeature hvalues.1)
  have habsent : Gives IsCondition absent :=
    (Gives.any _).bind fun _ _ => featureName_gives.bind fun feature hfeature =>
      .pure (.present hfeature)
  exact hcomparing.orElse (habsent.orElse (featureName_gives.bind fun feature hfeature =>
    .pure (.present hfeature)))

theorem node_gives :
    Gives (fun asked => IsName asked.name ∧ ∀ condition ∈ asked.conditions, IsCondition condition)
      node := by
  refine ident_gives.bind fun name hname => (Gives.any _).bind fun _ _ => ?_
  refine (Gives.separated "," condition_gives).optional.bind fun found hfound => ?_
  refine (Gives.any _).bind fun _ _ => .pure ⟨hname, ?_⟩
  cases found with
  | none => simp
  | some conditions => exact (hfound conditions rfl).2

theorem arrow_gives :
    Gives (fun arrow => (∀ name ∈ arrow.1, IsLabel name) ∧ (arrow.1 = [] → arrow.2 = false))
      arrow := by
  refine Gives.orElse ?_ ((Gives.any _).bind fun _ _ => .pure ⟨by simp, fun _ => rfl⟩)
  refine (Gives.any _).bind fun _ _ => (Gives.any _).bind fun negation _ => ?_
  refine (Gives.separated "|" label_gives).bind fun labels hlabels => ?_
  exact (Gives.any _).bind fun _ _ => .pure ⟨hlabels.2, fun hnone => absurd hnone hlabels.1⟩

theorem relation_gives : Gives IsRelation relation := by
  have hname : Gives IsName relationName :=
    ident_gives.bind fun name hname => (Gives.any _).bind fun _ _ => .pure hname
  refine hname.optional.bind fun name? hname? => ident_gives.bind fun head hhead => ?_
  refine arrow_gives.bind fun arrow harrow => ?_
  exact ident_gives.bind fun dep hdep => .pure ⟨hname?, hhead, hdep, harrow.1, harrow.2⟩

theorem clause_gives : Gives IsClause clause := by
  have horder : Gives (fun asked => IsName asked.left ∧ IsName asked.right) order :=
    ident_gives.bind fun left hleft => (Gives.any _).bind fun op _ =>
      ident_gives.bind fun right hright => .pure ⟨hleft, hright⟩
  refine (relation_gives.bind fun asked hasked => .pure (.relation hasked)).orElse ?_
  refine (horder.bind fun asked hasked => .pure (.order hasked.1 hasked.2)).orElse ?_
  exact node_gives.bind fun asked hasked => .pure (.node hasked.1 hasked.2)

theorem block_gives (keyword : String) :
    Gives (fun clauses => ∀ asked ∈ clauses, IsClause asked) (block keyword) := by
  have hitem : Gives (fun item : Option Clause => ∀ asked ∈ item, IsClause asked)
      clauseOrSeparator := by
    refine (clause_gives.bind fun asked hasked => .pure ?_).orElse
      ((Gives.any _).bind fun _ _ => .pure ?_)
    · rintro _ ⟨⟩
      exact hasked
    · rintro _ ⟨⟩
  refine (Gives.any _).bind fun _ _ => (Gives.any _).bind fun _ _ => ?_
  refine hitem.many.bind fun items hitems => (Gives.any _).bind fun _ _ => .pure ?_
  intro asked hasked
  obtain ⟨item, hmem, hitem⟩ := List.mem_filterMap.1 hasked
  exact hitems item hmem asked hitem

theorem request_gives : Gives IsValid request := by
  refine (block_gives "pattern").bind fun pattern hpattern => ?_
  exact (block_gives "without").many.bind fun withouts hwithouts => .pure ⟨hpattern, hwithouts⟩

/-! ### Requests -/

/-- **A valid request is read from all its spellings, and what is read is valid.** Gaps can stand
before every lexeme, clauses can follow each other after a blank, and values can be any texts. -/
theorem read_of_spells :
    (∀ (request : Request) text, request.IsValid → Spells request text →
      Request.read text = some request) ∧
    ∀ text request, Request.read text = some request → request.IsValid := by
  constructor
  · intro asked text hvalid hspells
    cases hspells with
    | @mk withouts gap hblock hwithouts hgap =>
      have hread : request text = some (asked, gap) := by
        rw [request, bind_of_some _ (block_of_block ⟨_, _, rfl, rfl⟩ hvalid.pattern hblock),
          bind_of_some _ (many_of_readsAll (hwithouts.readsAll hgap hvalid.withouts))]
        rfl
      have hend : skip gap = [] := by
        rw [← List.append_nil gap, skip_gap hgap]
        rfl
      rw [read, hread]
      exact if_pos hend
  · intro text asked hread
    unfold read at hread
    split at hread
    · next hrequest =>
      split at hread
      · cases hread
        exact request_gives hrequest
      · cases hread
    · cases hread

/-- Comments and blanks among the lexemes, a quote in a value, and clauses with no more than a tab
or a semicolon between them. -/
theorem read_of_spells_four :
    let text := "%\n pattern\x7bN[a<>\"\\\"\"]\te:N% \r-> M\x7dwithout\x7b;N<M;M[]\x7d\n".toList
    let request : Request :=
      { pattern :=
          [.node { name := "N", conditions := [.oneOf "a" ["\""] true] },
            .relation { name? := some "e", head := "N", dep := "M" }]
        withouts :=
          [[.order { left := "N", op := .justBefore, right := "M" },
            .node { name := "M", conditions := [] }]] }
    Spells request text ∧ Request.read text = some request := by
  intro text request
  have hname : ∀ c, isNameStart c = true → IsName (String.ofList [c]) := fun c hc =>
    ⟨c, [], String.toList_ofList, hc, by simp⟩
  have hN : IsName "N" := hname 'N' rfl
  have hM : IsName "M" := hname 'M' rfl
  have hvalid : request.IsValid := by
    refine ⟨List.forall_mem_cons.2 ⟨.node hN ?_, List.forall_mem_singleton.2 (.relation ?_)⟩,
      List.forall_mem_singleton.2 (List.forall_mem_cons.2 ⟨.order hN hM, ?_⟩)⟩
    · exact List.forall_mem_singleton.2
        (.oneOf ⟨'a', [], [], rfl, rfl, by simp, .inl rfl⟩ (by simp))
    · exact ⟨by rintro _ ⟨⟩; exact hname 'e' rfl, hN, hM, by simp, fun _ => rfl⟩
    · exact List.forall_mem_singleton.2 (.node hM (by simp))
  let last : List Char := "without\x7b;N<M;M[]\x7d\n".toList
  have hpattern : SpellsBlock "pattern" last request.pattern text := by
    have hopen : Laid ("N[a<>\"\\\"\"]\te:N% \r-> M\x7d".toList ++ last)
        ["pattern".toList, ['\x7b']] text :=
      .cons (@Gap.comment [] '\n' _ (by simp) rfl (.blank rfl .nil)) (.cons .nil .nil)
    have hnode : Laid ("\te:N% \r-> M\x7d".toList ++ last)
        (clauseLexemes (.node { name := "N", conditions := [.oneOf "a" ["\""] true] }))
        ("N[a<>\"\\\"\"]\te:N% \r-> M\x7d".toList ++ last) :=
      .cons .nil (.cons .nil (.cons .nil (.cons .nil (.cons .nil (.cons .nil .nil)))))
    have hcomment : Gap "% \r".toList := @Gap.comment [' '] '\r' _ (by simp [isLineEnd]) rfl .nil
    have hrelation : Laid ("\x7d".toList ++ last)
        (clauseLexemes (.relation { name? := some "e", head := "N", dep := "M" }))
        ("\te:N% \r-> M\x7d".toList ++ last) :=
      .cons (.blank rfl .nil)
        (.cons .nil (.cons .nil (.cons hcomment (.cons (.blank rfl .nil) .nil))))
    exact .mk hopen (.clause hnode (by rintro - _ ⟨⟩; rfl)
      (.clause hrelation (fun hnil => absurd rfl hnil) .nil)) (.cons .nil .nil)
  have hwithouts : SpellsWithouts "\n".toList request.withouts last := by
    have hopen : Laid ";N<M;M[]\x7d\n".toList ["without".toList, ['\x7b']] last :=
      .cons .nil (.cons .nil .nil)
    have horder : Laid ";M[]\x7d\n".toList
        (clauseLexemes (.order { left := "N", op := .justBefore, right := "M" }))
        "N<M;M[]\x7d\n".toList :=
      .cons .nil (.cons .nil (.cons .nil .nil))
    have hnode : Laid "\x7d\n".toList
        (clauseLexemes (.node { name := "M", conditions := [] })) "M[]\x7d\n".toList :=
      .cons .nil (.cons .nil (.cons .nil .nil))
    exact .cons (.mk hopen (.semicolon .nil (.clause horder (by rintro - _ ⟨⟩; rfl)
      (.semicolon .nil (.clause hnode (fun hnil => absurd rfl hnil) .nil)))) (.cons .nil .nil)) .nil
  have hspells : Spells request text := .mk hpattern hwithouts (.blank rfl .nil)
  exact ⟨hspells, read_of_spells.1 request text hvalid hspells⟩

end Treebank.Request
