import Treebank.Proofs.Reading

/-! A document as runs of lines.

Blank lines cut the lines of a document, up to the first that cannot be had, into runs. Each
run is read on its own, from its comments and its token lines (`Run.item`), and it is read if
something ends it: a blank line, or the end of a document all lines of which can be had.
`Reader.items_eq` says that a reader gives these items and the error of the line that cannot
be had, in their order, and `Reader.call_eq` that it gives nothing after them. After a blank
line reading starts anew, so the items of two documents follow each other
(`readBytes_outcome`). -/
namespace Treebank
open Text

/-- Lines that follow each other, each with its number in the document. -/
abbrev Run := List (List Char × Nat)

/-! ### Cutting a document -/

/-- The lines before the first that cannot be had, where `number` lines come before them all. -/
def numbered (number : Nat) : List Line → Run
  | .ok line :: rest => (line, number + 1) :: numbered (number + 1) rest
  | _ => []

/-- The lines between one blank line and the next, also if there are none. -/
def stretches (number : Nat) (lines : List Line) : List Run :=
  (numbered number lines).splitOnP fun line => Reader.isBlankLine line.1

/-- The stretches that are runs. The last one has no end unless the document is read to its end,
and then it does not count. -/
def ended (isWhole : Bool) (stretches : List Run) : List Run :=
  (if isWhole then stretches else stretches.dropLast).filter (· ≠ [])

/-- The longest runs of lines that are not blank. -/
def runs (number : Nat) (lines : List Line) : List Run :=
  ended (lines.all Except.isOk) (stretches number lines)

/-- The error at the first line that cannot be had. -/
def streamError? (number : Nat) : List Line → Option ReadError
  | [] => none
  | .ok _ :: rest => streamError? (number + 1) rest
  | .error fault :: _ => some { line := number + 1, fault := .stream fault }

theorem streamError?_eq_none {lines : List Line} (h : ∀ line ∈ lines, line.isOk = true)
    (number : Nat) : streamError? number lines = none := by
  induction lines generalizing number with
  | nil => rfl
  | cons line rest ih =>
    obtain ⟨hline, hrest⟩ := List.forall_mem_cons.1 h
    obtain ⟨text, rfl⟩ := exists_eq_ok hline
    exact ih hrest _

/-! ### Reading a run -/

namespace Run

/-- A comment, without the mark that makes the line one. -/
def comment? : List Char → Option (List Char)
  | '#' :: comment => some comment
  | _ => none

def comments (run : Run) : List (List Char) := run.filterMap fun line => comment? line.1

/-- The lines that are no comments. -/
def tokenLines (run : Run) : Run := run.filter fun line => (comment? line.1).isNone

/-- The error of the first token line that is refused. -/
def error? (run : Run) : Option ReadError :=
  run.tokenLines.findSome? fun (line, number) =>
    match Token.read line with
    | .ok _ => none
    | .error fault => some { line := number, fault := .line fault }

def tokens (run : Run) : List Token :=
  run.tokenLines.filterMap fun line => (Token.read line.1).toOption

/-- The sentence of the comments and the tokens of a run. -/
def sentence (run : Run) : Sentence :=
  { Sentence.ofTokens run.tokens with metadata := run.comments.foldl Metadata.addComment {} }

def item (run : Run) : Except ReadError Sentence :=
  match run.error? with
  | some error => .error error
  | none => .ok run.sentence

end Run

/-- What a document comes to, run by run. -/
def itemsOf (number : Nat) (lines : List Line) : List (Except ReadError Sentence) :=
  (runs number lines).map Run.item ++ (streamError? number lines).toList.map .error

/-! ### Stretches -/

theorem stretches_ne_nil (number : Nat) (lines : List Line) : stretches number lines ≠ [] :=
  List.splitOnP_ne_nil _ _

theorem stretches_blank {line : List Char} (h : Reader.isBlankLine line = true) (number : Nat)
    (rest : List Line) :
    stretches number (.ok line :: rest) = [] :: stretches (number + 1) rest := by
  rw [stretches, numbered, List.splitOnP_cons_eq_if_modifyHead, if_pos h]
  rfl

theorem stretches_line {line : List Char} (h : Reader.isBlankLine line = false) (number : Nat)
    (rest : List Line) :
    stretches number (.ok line :: rest) =
      (stretches (number + 1) rest).modifyHead ((line, number + 1) :: ·) := by
  rw [stretches, numbered, List.splitOnP_cons_eq_if_modifyHead, if_neg (by simp [h])]
  rfl

theorem map_fst_numbered (number : Nat) (lines : List (List Char)) :
    (numbered number (lines.map .ok)).map (·.1) = lines := by
  induction lines generalizing number with
  | nil => rfl
  | cons line rest ih => rw [List.map_cons, numbered, List.map_cons, ih]

theorem ended_singleton (run : Run) : ended true [run] = if run = [] then [] else [run] := by
  by_cases hempty : run = [] <;> simp [ended, hempty]

theorem ended_append {rest : List Run} (h : rest ≠ []) (isWhole : Bool) (first : List Run) :
    ended isWhole (first ++ rest) = ended true first ++ ended isWhole rest := by
  cases isWhole <;> simp [ended, List.dropLast_append_of_ne_nil h]

theorem ended_cons {rest : List Run} (h : rest ≠ []) (isWhole : Bool) (run : Run) :
    ended isWhole (run :: rest) = (if run = [] then [] else [run]) ++ ended isWhole rest := by
  rw [← ended_singleton, ← ended_append h, List.singleton_append]

/-- Without a blank line there is no more than one run. -/
theorem runs_map_ok {lines : List (List Char)}
    (hblank : ∀ line ∈ lines, Reader.isBlankLine line = false) (number : Nat) :
    runs number (lines.map .ok) =
      if lines = [] then [] else [numbered number (lines.map .ok)] := by
  have hone : stretches number (lines.map .ok) = [numbered number (lines.map .ok)] := by
    refine List.splitOnP_eq_singleton fun line hline => hblank line.1 ?_
    rw [← map_fst_numbered number lines]
    exact List.mem_map_of_mem hline
  have hnil : numbered number (lines.map .ok) = [] ↔ lines = [] := by
    rw [← List.map_eq_nil_iff, map_fst_numbered]
  have hall : (lines.map (.ok : _ → Line)).all Except.isOk = true :=
    List.all_eq_true.2 (List.forall_mem_map.2 fun _ _ => rfl)
  rw [runs, hall, hone, ended_singleton]
  simp only [hnil]

/-- The lines of the one run are there as they were. -/
theorem map_fst_headD_runs {lines : List (List Char)}
    (hblank : ∀ line ∈ lines, Reader.isBlankLine line = false) (number : Nat) :
    ((runs number (lines.map .ok)).headD []).map (·.1) = lines := by
  rw [runs_map_ok hblank]
  split
  · next h => rw [h]; rfl
  · exact map_fst_numbered number lines

/-! ### Runs with one more line -/

namespace Sentence

theorem addLine_of_comment? {line comment : List Char} (h : Run.comment? line = some comment)
    (s : Sentence) (number : Nat) :
    s.addLine number line = .ok { s with metadata := s.metadata.addComment comment } := by
  unfold Run.comment? at h
  split at h
  · cases h
    rfl
  · cases h

theorem addLine_of_token {line : List Char} (h : Run.comment? line = none) (s : Sentence)
    (number : Nat) :
    s.addLine number line =
      match Token.read line with
      | .ok token => .ok (s.push token)
      | .error fault => .error { line := number, fault := .line fault } := by
  unfold Run.comment? at h
  split at h
  · cases h
  · next hmark =>
    unfold addLine
    split
    · next comment => exact absurd rfl (hmark comment)
    · rfl

theorem push_annotate (s : Sentence) (metadata : Metadata) (token : Token) :
    push { s with metadata } token = { s.push token with metadata } := by
  unfold push
  cases token.id <;> rfl

end Sentence

namespace Run

theorem sentence_comment (run : Run) {line comment : List Char}
    (h : comment? line = some comment) (number : Nat) :
    sentence (run ++ [(line, number)]) =
      { run.sentence with metadata := run.sentence.metadata.addComment comment } := by
  simp [sentence, tokens, tokenLines, comments, h]

theorem sentence_token (run : Run) {line : List Char} {token : Token} (h : comment? line = none)
    (hread : Token.read line = .ok token) (number : Nat) :
    sentence (run ++ [(line, number)]) = run.sentence.push token := by
  have htokens : tokens (run ++ [(line, number)]) = run.tokens ++ [token] := by
    simp [tokens, tokenLines, h, hread, Except.toOption]
  have hcomments : comments (run ++ [(line, number)]) = run.comments := by
    simp [comments, h]
  rw [sentence, htokens, hcomments, sentence, Sentence.push_annotate, Sentence.ofTokens,
    List.foldl_append]
  rfl

theorem error?_append (run more : Run) : error? (run ++ more) = run.error?.or more.error? := by
  rw [error?, tokenLines, List.filter_append, List.findSome?_append]
  rfl

/-- A run with one more line comes to what its item comes to with that line. -/
theorem item_concat (run : Run) (line : List Char) (number : Nat) :
    item (run ++ [(line, number)]) = run.item >>= fun s => s.addLine number line := by
  unfold item
  rw [error?_append]
  cases herror : run.error? with
  | some error => rfl
  | none =>
    rw [Option.none_or]
    show _ = run.sentence.addLine number line
    cases hcomment : comment? line with
    | some comment =>
      have hnone : error? [(line, number)] = none := by simp [error?, tokenLines, hcomment]
      rw [hnone, Sentence.addLine_of_comment? hcomment, sentence_comment run hcomment]
    | none =>
      rw [Sentence.addLine_of_token hcomment]
      cases hread : Token.read line with
      | ok token =>
        have hnone : error? [(line, number)] = none := by
          simp [error?, tokenLines, hcomment, hread]
        rw [hnone, sentence_token run hcomment hread]
      | error fault =>
        have hsome : error? [(line, number)] =
            some { line := number, fault := .line fault } := by
          simp [error?, tokenLines, hcomment, hread]
        rw [hsome]

end Run

/-! ### The items of a reader -/

namespace Reader

/-- The items of a document of whose first sentence `draft` holds the lines so far. -/
def itemsFrom (draft : Option (Except ReadError Sentence)) (number : Nat) (lines : List Line) :
    List (Except ReadError Sentence) :=
  match finish draft number lines with
  | some (item, after) => item :: after.items
  | none => []

theorem items_eq_itemsFrom (reader : Reader) :
    reader.items = itemsFrom none reader.number reader.rest := by
  rw [itemsFrom, ← next?]
  cases h : reader.next? with
  | none => exact items_nil h
  | some found => exact items_cons h

section Steps
variable (draft : Option (Except ReadError Sentence)) (number : Nat) (rest : List Line)

theorem itemsFrom_nil : itemsFrom draft number [] = draft.toList := by
  cases draft with
  | none => rfl
  | some item =>
    show item :: items { rest := [], number } = [item]
    rw [items_eq_itemsFrom]
    rfl

theorem itemsFrom_fault (fault : StreamFault) :
    itemsFrom draft number (.error fault :: rest) =
      [.error { line := number + 1, fault := .stream fault }] := by
  show _ :: items { rest := [], number } = _
  rw [items_eq_itemsFrom]
  rfl

theorem itemsFrom_blank {line : List Char} (h : isBlankLine line = true) :
    itemsFrom draft number (.ok line :: rest) =
      draft.toList ++ itemsFrom none (number + 1) rest := by
  cases draft with
  | none =>
    rw [itemsFrom, finish, if_pos h]
    rfl
  | some item =>
    rw [itemsFrom, finish, if_pos h]
    exact congrArg (item :: ·) (items_eq_itemsFrom _)

theorem itemsFrom_line {line : List Char} (h : isBlankLine line = false) :
    itemsFrom draft number (.ok line :: rest) =
      itemsFrom (some (draft.getD (.ok {}) >>= fun s => s.addLine (number + 1) line)) (number + 1)
        rest := by
  have hline : ¬ isBlankLine line = true := by simp [h]
  cases draft <;> rw [itemsFrom, finish, if_neg hline] <;> rfl

end Steps

/-- What the lines of a run have come to; nothing yet, if there are none. -/
def draftOf (run : Run) : Option (Except ReadError Sentence) :=
  if run = [] then none else some run.item

theorem getD_draftOf (run : Run) : (draftOf run).getD (.ok {}) = run.item := by
  unfold draftOf
  split
  · next h =>
    rw [h]
    rfl
  · rfl

theorem draftOf_concat (run : Run) (line : List Char) (number : Nat) :
    draftOf (run ++ [(line, number)]) =
      some ((draftOf run).getD (.ok {}) >>= fun s => s.addLine number line) := by
  rw [getD_draftOf, ← Run.item_concat, draftOf, if_neg (by simp)]

/-- The lines of the run so far belong to the first stretch of the lines that are left. -/
theorem itemsFrom_draftOf (run : Run) (number : Nat) (lines : List Line) :
    itemsFrom (draftOf run) number lines =
      (ended (lines.all Except.isOk) ((stretches number lines).modifyHead (run ++ ·))).map
        Run.item ++ (streamError? number lines).toList.map .error := by
  -- By the lines: a blank one ends the run, and any other that can be had goes to its end.
  induction lines generalizing run number with
  | nil =>
    rw [itemsFrom_nil]
    by_cases hrun : run = [] <;> simp [draftOf, ended, stretches, numbered, streamError?, hrun]
  | cons line rest ih =>
    cases line with
    | error fault =>
      rw [itemsFrom_fault]
      simp [ended, stretches, numbered, streamError?, Except.isOk, Except.toBool]
    | ok line =>
      have hwhole : (.ok line :: rest : List Line).all Except.isOk = rest.all Except.isOk := rfl
      rw [streamError?, hwhole]
      cases hblank : isBlankLine line with
      | true =>
        have hnone : draftOf [] = none := rfl
        have hfirst : (stretches (number + 1) rest).modifyHead ([] ++ ·) =
            stretches (number + 1) rest := congrFun List.modifyHead_id _
        rw [itemsFrom_blank _ _ _ hblank, stretches_blank hblank, List.modifyHead_cons,
          List.append_nil, ended_cons (stretches_ne_nil _ _), ← hnone, ih, hfirst,
          List.map_append, List.append_assoc]
        congr 1
        by_cases hrun : run = [] <;> simp [draftOf, hrun]
      | false =>
        rw [itemsFrom_line _ _ _ hblank, ← draftOf_concat, ih, stretches_line hblank,
          List.modifyHead_modifyHead]
        simp [Function.comp_def]

/-- **A document is read run by run.** -/
theorem items_eq (number : Nat) (lines : List Line) :
    items { rest := lines, number } = itemsOf number lines := by
  have hnone : draftOf [] = none := rfl
  have hfirst : (stretches number lines).modifyHead ([] ++ ·) = stretches number lines :=
    congrFun List.modifyHead_id _
  rw [items_eq_itemsFrom, ← hnone, itemsFrom_draftOf, hfirst]
  rfl

end Reader

theorem readBytes_eq (bytes : List UInt8) : readBytes bytes = itemsOf 0 (byteLines bytes) :=
  Reader.items_eq 0 _

/-- The first run of a text, with no lines if the text has none that are not blank. -/
def firstRun (text : List Char) : Run := (runs 0 (textLines text)).headD []

theorem ne_nil_of_mem_runs {number : Nat} {lines : List Line} {run : Run}
    (h : run ∈ runs number lines) : run ≠ [] :=
  of_decide_eq_true (List.mem_filter.1 h).2

/-- Of a text only the first run is read. -/
theorem Sentence.read_eq (text : List Char) :
    Sentence.read text =
      if firstRun text = [] then .error { line := 0, fault := .noSentence }
      else (firstRun text).item := by
  have hwhole : ∀ line ∈ textLines text, line.isOk = true := by
    intro line hline
    obtain ⟨full, -, rfl⟩ := List.mem_map.1 hline
    rfl
  have herror := streamError?_eq_none hwhole 0
  have hitems := Reader.items_eq 0 (textLines text)
  rw [itemsOf, herror, Option.toList_none, List.map_nil, List.append_nil] at hitems
  unfold Sentence.read firstRun
  cases hnext : Reader.next? { rest := textLines text } with
  | none =>
    rw [Reader.items_nil hnext] at hitems
    rw [List.map_eq_nil_iff.1 hitems.symm]
    rfl
  | some found =>
    rw [Reader.items_cons hnext] at hitems
    obtain ⟨run, more, hruns, hitem, -⟩ := List.map_eq_cons_iff.1 hitems.symm
    rw [hruns, List.headD_cons, if_neg (ne_nil_of_mem_runs (hruns ▸ List.mem_cons_self))]
    exact hitem.symm

/-! ### Calls -/

namespace Reader

/-- What a call returns when the reader is called again and again; the first call is number 0. -/
def call : Nat → Reader → Option (Except ReadError Sentence)
  | 0, reader => reader.next?.map Prod.fst
  | n + 1, reader => call n ((reader.next?.map Prod.snd).getD reader)

/-- The items come one by one, and nothing comes after them. -/
theorem call_eq (n : Nat) (reader : Reader) : call n reader = reader.items[n]? := by
  induction n generalizing reader with
  | zero =>
    cases h : reader.next? with
    | none => simp [call, h, items_nil h]
    | some found => simp [call, h, items_cons h]
  | succ n ih =>
    cases h : reader.next? with
    | none => simp [call, h, ih, items_nil h]
    | some found => simp [call, h, ih, items_cons h]

end Reader

/-! ### Documents one after the other -/

/-- The error when `count` lines more come before it. -/
def ReadError.shift (count : Nat) (error : ReadError) : ReadError :=
  { error with line := error.line + count }

namespace Run

def shift (count : Nat) (run : Run) : Run := run.map fun line => (line.1, line.2 + count)

theorem comments_shift (count : Nat) (run : Run) : (run.shift count).comments = run.comments := by
  simp [comments, shift, List.filterMap_map]

theorem tokenLines_shift (count : Nat) (run : Run) :
    (run.shift count).tokenLines = shift count run.tokenLines := by
  simp [tokenLines, shift, List.filter_map, Function.comp_def]

theorem sentence_shift (count : Nat) (run : Run) : (run.shift count).sentence = run.sentence := by
  have htokens : (run.shift count).tokens = run.tokens := by
    rw [tokens, tokenLines_shift, shift, List.filterMap_map]
    rfl
  rw [sentence, htokens, comments_shift, sentence]

theorem error?_shift (count : Nat) (run : Run) :
    (run.shift count).error? = run.error?.map (·.shift count) := by
  rw [error?, tokenLines_shift, shift, List.findSome?_map, error?, List.map_findSome?]
  refine congrArg (List.findSome? · _) (funext fun line => ?_)
  simp only [Function.comp_apply]
  cases Token.read line.1 <;> rfl

theorem item_shift (count : Nat) (run : Run) :
    (run.shift count).item = run.item.mapError (·.shift count) := by
  rw [item, error?_shift, sentence_shift, item]
  cases run.error? <;> rfl

end Run

section Shift
variable (number count : Nat) (lines : List Line)

theorem stretches_add :
    stretches (number + count) lines = (stretches number lines).map (Run.shift count) := by
  induction lines generalizing number with
  | nil => rfl
  | cons line rest ih =>
    cases line with
    | error fault => rfl
    | ok line =>
      cases hblank : Reader.isBlankLine line with
      | true =>
        rw [stretches_blank hblank, stretches_blank hblank, Nat.add_right_comm, ih]
        rfl
      | false =>
        rw [stretches_line hblank, stretches_line hblank, Nat.add_right_comm, ih]
        cases stretches (number + 1) rest with
        | nil => rfl
        | cons first more => simp [Run.shift, Nat.add_right_comm]

theorem runs_add : runs (number + count) lines = (runs number lines).map (Run.shift count) := by
  have hempty : (fun run : Run => decide (run ≠ [])) ∘ Run.shift count =
      fun run => decide (run ≠ []) := funext fun run => by simp [Run.shift]
  rw [runs, stretches_add, ended, runs, ended]
  split <;> simp only [← List.map_dropLast, List.filter_map, hempty]

theorem streamError?_add :
    streamError? (number + count) lines = (streamError? number lines).map (·.shift count) := by
  induction lines generalizing number with
  | nil => rfl
  | cons line rest ih =>
    cases line with
    | error fault => simp [streamError?, ReadError.shift, Nat.add_right_comm]
    | ok line => rw [streamError?, streamError?, Nat.add_right_comm, ih]

/-- The items of a document with more lines before it have other line numbers. -/
theorem itemsOf_add :
    itemsOf (number + count) lines =
      (itemsOf number lines).map (Except.mapError (·.shift count)) := by
  rw [itemsOf, runs_add, streamError?_add, itemsOf, List.map_append, List.map_map, List.map_map]
  refine congrArg₂ _ (List.map_congr_left fun run _ => run.item_shift count) ?_
  cases streamError? number lines <;> rfl

end Shift

/-- The last of the lines, if there is one, is blank. -/
def EndsBlank (lines : List Line) : Prop :=
  ∀ line ∈ lines.getLast?, line.toOption.any Reader.isBlankLine = true

instance : DecidablePred EndsBlank := fun lines =>
  inferInstanceAs (Decidable (∀ line ∈ lines.getLast?, line.toOption.any Reader.isBlankLine = true))

/-- The first of the lines, if there is one, is blank. -/
def StartsBlank (lines : List Line) : Prop :=
  ∀ line ∈ lines.head?, line.toOption.any Reader.isBlankLine = true

instance : DecidablePred StartsBlank := fun lines =>
  inferInstanceAs (Decidable (∀ line ∈ lines.head?, line.toOption.any Reader.isBlankLine = true))

section Append
variable {front : List Line} (hwhole : ∀ line ∈ front, line.isOk = true)

include hwhole

theorem numbered_append (number : Nat) (back : List Line) :
    numbered number (front ++ back) =
      numbered number front ++ numbered (number + front.length) back := by
  induction front generalizing number with
  | nil => rfl
  | cons line rest ih =>
    obtain ⟨hline, hrest⟩ := List.forall_mem_cons.1 hwhole
    obtain ⟨text, rfl⟩ := exists_eq_ok hline
    rw [List.cons_append, numbered, ih hrest, numbered, List.length_cons, List.cons_append,
      Nat.add_assoc, Nat.add_comm 1]

theorem stretches_append {text : List Char} (hblank : Reader.isBlankLine text = true)
    (number : Nat) (back : List Line) :
    stretches number (front ++ .ok text :: back) =
      stretches number front ++ stretches (number + front.length + 1) back := by
  rw [stretches, numbered_append hwhole, numbered]
  exact List.splitOnP_append_cons _ _ hblank

theorem streamError?_append (number : Nat) (back : List Line) :
    streamError? number (front ++ back) = streamError? (number + front.length) back := by
  induction front generalizing number with
  | nil => rfl
  | cons line rest ih =>
    obtain ⟨hline, hrest⟩ := List.forall_mem_cons.1 hwhole
    obtain ⟨text, rfl⟩ := exists_eq_ok hline
    rw [List.cons_append, streamError?, ih hrest, List.length_cons, Nat.add_assoc, Nat.add_comm 1]

theorem runs_append_blank {text : List Char} (hblank : Reader.isBlankLine text = true)
    (number : Nat) (back : List Line) :
    runs number (front ++ .ok text :: back) =
      runs number front ++ runs (number + front.length + 1) back := by
  have hfront : front.all Except.isOk = true := List.all_eq_true.2 hwhole
  have hall : (front ++ .ok text :: back).all Except.isOk = back.all Except.isOk := by
    rw [List.all_append, hfront]
    rfl
  rw [runs, hall, stretches_append hwhole hblank, ended_append (stretches_ne_nil _ _), runs, hfront]
  rfl

/-- No run goes on over a blank line. -/
theorem runs_append {back : List Line} (hblank : EndsBlank front ∨ StartsBlank back)
    (number : Nat) :
    runs number (front ++ back) = runs number front ++ runs (number + front.length) back := by
  rcases hblank with hends | hstarts
  · rcases List.eq_nil_or_concat' front with rfl | ⟨before, last, rfl⟩
    · rfl
    · obtain ⟨text, htext, hlast⟩ := (Option.any_eq_true _ _).1 (hends last (by simp))
      obtain rfl := toOption_eq_some_iff.1 htext
      have hbefore : ∀ line ∈ before, line.isOk = true := fun line hline =>
        hwhole line (List.mem_append_left _ hline)
      have hfront : runs number (before ++ [.ok text]) = runs number before := by
        rw [runs_append_blank hbefore hlast]
        exact List.append_nil _
      rw [List.append_assoc, List.singleton_append, runs_append_blank hbefore hlast, hfront,
        List.length_append]
      rfl
  · cases back with
    | nil =>
      rw [List.append_nil]
      exact (List.append_nil _).symm
    | cons first rest =>
      obtain ⟨text, htext, hfirst⟩ := (Option.any_eq_true _ _).1 (hstarts first rfl)
      obtain rfl := toOption_eq_some_iff.1 htext
      have hback : runs (number + front.length) (.ok text :: rest) =
          runs (number + front.length + 1) rest :=
        @runs_append_blank [] (by simp) text hfirst _ rest
      rw [runs_append_blank hwhole hfirst, hback]

theorem itemsOf_append (hblank : EndsBlank front) (number : Nat) (back : List Line) :
    itemsOf number (front ++ back) =
      itemsOf number front ++ itemsOf (number + front.length) back := by
  have herror := streamError?_eq_none hwhole number
  rw [itemsOf, runs_append hwhole (.inl hblank), streamError?_append hwhole, itemsOf, herror,
    itemsOf, List.map_append]
  simp

end Append

/-! ### Bytes -/

theorem terminated_ne_nil {α : Type} [DecidableEq α] (mark a : α) (rest : List α) :
    terminated mark (a :: rest) ≠ [] := by
  rw [terminated]
  split
  · exact List.cons_ne_nil _ _
  · split <;> exact List.cons_ne_nil _ _

theorem terminated_append_terminated {α : Type} [DecidableEq α] (mark : α) (front back : List α) :
    terminated mark (front ++ mark :: back) =
      terminated mark (front ++ [mark]) ++ terminated mark back := by
  induction front with
  | nil => simp [terminated]
  | cons a rest ih =>
    have hlines : terminated mark (rest ++ [mark]) ≠ [] := by
      cases rest <;> exact terminated_ne_nil _ _ _
    obtain ⟨line, lines, heq⟩ := List.exists_cons_of_ne_nil hlines
    rw [List.cons_append, terminated, ih, List.cons_append, terminated, heq]
    split <;> rfl

/-- The first document ends with a line, or with nothing. -/
theorem byteLines_append {front : List UInt8} (h : ∀ byte ∈ front.getLast?, byte = 0x0A)
    (back : List UInt8) : byteLines (front ++ back) = byteLines front ++ byteLines back := by
  rcases List.eq_nil_or_concat' front with rfl | ⟨before, last, rfl⟩
  · rfl
  · obtain rfl : last = 0x0A := h last (by simp)
    rw [List.append_assoc, List.singleton_append, byteLines, terminated_append_terminated,
      List.map_append]
    rfl

/-- All lines of the document are text. -/
def IsText (bytes : List UInt8) : Prop := ∀ line ∈ byteLines bytes, line.isOk = true

instance : DecidablePred IsText := fun bytes =>
  inferInstanceAs (Decidable (∀ line ∈ byteLines bytes, line.isOk = true))

/-- The document ends with a blank line, if it has any lines. -/
structure EndsSentence (bytes : List UInt8) : Prop where
  newline : ∀ byte ∈ bytes.getLast?, byte = 0x0A
  blank : EndsBlank (byteLines bytes)

/-- **Documents are read block by block.** The calls of a reader return what the runs of lines
come to, each from its own lines, then the error of the line that is no text, if there is one,
and then nothing. After a blank line reading starts anew. -/
theorem readBytes_outcome :
    (∀ bytes, readBytes bytes = itemsOf 0 (byteLines bytes) ∧
      ∀ n, Reader.call n { rest := byteLines bytes } = (readBytes bytes)[n]?) ∧
    ∀ front back, IsText front → EndsSentence front →
      readBytes (front ++ back) =
        readBytes front ++
          (readBytes back).map (Except.mapError (·.shift (byteLines front).length)) := by
  refine ⟨fun bytes => ⟨readBytes_eq bytes, fun n => Reader.call_eq n _⟩, ?_⟩
  intro front back htext hends
  rw [readBytes_eq, byteLines_append hends.newline, itemsOf_append htext hends.blank, itemsOf_add,
    ← readBytes_eq, ← readBytes_eq]

/-- Two faulty lines in one run, a run that is read, and one that a line without text cuts off. -/
theorem readBytes_four :
    let front : List UInt8 := "1\ta\n1\tb\tc\n \n\n".toUTF8.data.toList
    let back : List UInt8 :=
      "# x\n\n1\ta\n".toUTF8.data.toList ++ [0xFF, 0x0A] ++ "# y\n".toUTF8.data.toList
    readBytes (front ++ back) =
      [.error { line := 1, fault := .line (.tooFewColumns 2) },
       .ok { metadata := { comments := ["x"] } },
       .error { line := 8, fault := .stream .notText }] := by
  intro front back
  have hfront : readBytes front = [.error { line := 1, fault := .line (.tooFewColumns 2) }] := by
    rw [(readBytes_outcome.1 front).1]
    decide +kernel
  have hback : readBytes back =
      [.ok { metadata := { comments := ["x"] } },
       .error { line := 4, fault := .stream .notText }] := by
    rw [(readBytes_outcome.1 back).1]
    decide +kernel
  have hends : EndsSentence front := ⟨by decide +kernel, by decide +kernel⟩
  rw [readBytes_outcome.2 front back (by decide +kernel) hends, hfront, hback]
  decide +kernel

end Treebank
