import Treebank.Corpus.Basic
import Treebank.Proofs.Runs
import Treebank.Proofs.Search

/-! Corpora, run by run.

Every run of lines of every document is read and built as if it were alone (`Run.alone?`),
and nothing that goes wrong with it reaches another run: the sentences of a corpus are those
of the runs, in order, and each run that has none leaves one warning. So runs without a
sentence can be put in or taken out of a document (`corpus_outcome`). -/
namespace Treebank
open Text

/-! ### A run on its own -/

namespace Run

/-- The lines of a run as a text of their own. -/
def text (run : Run) : List Char := (run.map (·.1)).flatMap (· ++ ['\n'])

/-- The sentence of a run that is read and built on its own, if there is one. -/
def alone? (run : Run) : Option Sentence :=
  (Sentence.read run.text).toOption.bind (·.build.toOption)

theorem comments_eq (run : Run) : run.comments = (run.map (·.1)).filterMap comment? := by
  rw [List.filterMap_map]
  rfl

theorem tokens_eq (run : Run) :
    run.tokens = ((run.map (·.1)).filter fun line => (comment? line).isNone).filterMap
      fun line => (Token.read line).toOption := by
  rw [List.filter_map, List.filterMap_map]
  rfl

theorem isNone_error? (run : Run) :
    run.error?.isNone = ((run.map (·.1)).filter fun line => (comment? line).isNone).all
      fun line => (Token.read line).toOption.isSome := by
  rw [List.filter_map, List.all_map, Bool.eq_iff_iff, Option.isNone_iff_eq_none, error?,
    List.findSome?_eq_none_iff, List.all_eq_true]
  refine forall₂_congr fun line _ => ?_
  rw [Function.comp_apply]
  cases hread : Token.read line.1 <;> simp [hread, Except.toOption]

theorem toOption_item (run : Run) :
    run.item.toOption = if run.error?.isNone then some run.sentence else none := by
  unfold item
  cases run.error? <;> rfl

/-- What a run comes to does not depend on where it stands, but for the line of its error. -/
theorem toOption_item_congr {run other : Run} (h : run.map (·.1) = other.map (·.1)) :
    run.item.toOption = other.item.toOption := by
  rw [toOption_item, toOption_item, isNone_error?, isNone_error?, sentence, sentence, tokens_eq,
    tokens_eq, comments_eq, comments_eq, h]

theorem alone?_shift (count : Nat) (run : Run) : (run.shift count).alone? = run.alone? := by
  have htext : (run.shift count).text = run.text := by
    rw [text, shift, List.map_map]
    rfl
  rw [alone?, htext, alone?]

end Run

/-! ### The runs of a document -/

theorem mem_of_mem_numbered {number : Nat} {lines : List Line} {line : List Char × Nat}
    (h : line ∈ numbered number lines) : .ok line.1 ∈ lines := by
  induction lines generalizing number with
  | nil => cases h
  | cons first rest ih =>
    cases first with
    | error fault => cases h
    | ok text =>
      rcases List.mem_cons.1 h with rfl | h
      · exact List.mem_cons_self
      · exact List.mem_cons_of_mem _ (ih h)

theorem mem_of_mem_splitOnP {α : Type} {p : α → Bool} {xs part : List α}
    (h : part ∈ xs.splitOnP p) : ∀ x ∈ part, x ∈ xs ∧ p x = false := by
  induction xs generalizing part with
  | nil =>
    rw [List.splitOnP_nil, List.mem_singleton] at h
    simp [h]
  | cons first rest ih =>
    rw [List.splitOnP_cons_eq_if_modifyHead] at h
    split at h
    · rcases List.mem_cons.1 h with rfl | h
      · simp
      · exact fun x hx => (ih h x hx).imp_left (List.mem_cons_of_mem _)
    · next hfirst =>
      obtain ⟨head, tail, hparts⟩ := List.exists_cons_of_ne_nil (List.splitOnP_ne_nil p rest)
      rw [hparts] at h ih
      rcases List.mem_cons.1 h with rfl | h
      · intro x hx
        rcases List.mem_cons.1 hx with rfl | hx
        · exact ⟨List.mem_cons_self, Bool.eq_false_iff.2 hfirst⟩
        · exact (ih List.mem_cons_self x hx).imp_left (List.mem_cons_of_mem _)
      · exact fun x hx => (ih (List.mem_cons_of_mem _ h) x hx).imp_left (List.mem_cons_of_mem _)

/-- Runs are made of the lines that are not blank. -/
theorem mem_of_mem_runs {number : Nat} {lines : List Line} {run : Run}
    (h : run ∈ runs number lines) :
    ∀ line ∈ run, .ok line.1 ∈ lines ∧ Reader.isBlankLine line.1 = false := by
  have hstretch : run ∈ stretches number lines := by
    have hmem := (List.mem_filter.1 h).1
    split at hmem
    · exact hmem
    · exact (List.dropLast_subset _) hmem
  exact fun line hline => (mem_of_mem_splitOnP hstretch line hline).imp_left mem_of_mem_numbered

/-- A text has the bytes of its characters. -/
theorem eq_flatMap_of_decode {bytes : List UInt8} {text : List Char}
    (h : decode bytes = some text) : bytes = text.flatMap String.utf8EncodeChar := by
  obtain ⟨s, hs, rfl⟩ := Option.map_eq_some_iff.1 h
  unfold String.fromUTF8? at hs
  split at hs
  · next hvalid =>
    cases hs
    have hbytes := congrArg (·.data.toList)
      (String.utf8Encode_toList (b := String.fromUTF8 ⟨bytes.toArray⟩ hvalid))
    rw [List.utf8Encode, List.toList_data_toByteArray] at hbytes
    exact hbytes.symm
  · cases hs

theorem ends_of_mem_byteLines {bytes : List UInt8} {line : List Char}
    (h : .ok line ∈ byteLines bytes) : '\n' ∉ line ∧ dropReturns line = line := by
  obtain ⟨part, hpart, hline⟩ := List.mem_map.1 h
  unfold decodeLine at hline
  split at hline
  · next text htext =>
    cases hline
    refine ⟨fun hmem => not_mem_of_mem_terminated hpart ?_, dropEndWhile_dropEndWhile text⟩
    rw [eq_flatMap_of_decode htext]
    exact List.mem_flatMap.2 ⟨'\n', mem_of_mem_dropEndWhile hmem, by decide⟩
  · cases hline

/-- What ends a line is no part of it. -/
theorem ends_of_mem_lines {stream : ByteStream} {line : List Char} (h : .ok line ∈ stream.lines) :
    '\n' ∉ line ∧ dropReturns line = line := by
  unfold ByteStream.lines at h
  split at h
  · exact ends_of_mem_byteLines h
  · exact ends_of_mem_byteLines (by simpa using h)

/-- A run of a document is read alone as it is read in its place. -/
theorem Run.alone?_eq {number : Nat} {stream : ByteStream} {run : Run}
    (h : run ∈ runs number stream.lines) :
    run.alone? = run.item.toOption.bind (·.build.toOption) := by
  have hlines : ∀ line ∈ run.map (·.1), '\n' ∉ line ∧ dropReturns line = line ∧
      Reader.isBlankLine line = false := by
    refine List.forall_mem_map.2 fun line hline => ?_
    obtain ⟨hmem, hblank⟩ := mem_of_mem_runs h line hline
    obtain ⟨hnewline, hreturns⟩ := ends_of_mem_lines hmem
    exact ⟨hnewline, hreturns, hblank⟩
  have htext : textLines run.text = (run.map (·.1)).map .ok := by
    rw [text, textLines_terminate fun line hline => (hlines line hline).1]
    exact List.map_congr_left fun line hline => congrArg Except.ok (hlines line hline).2.1
  have hrun : (firstRun run.text).map (·.1) = run.map (·.1) := by
    rw [firstRun, htext]
    exact map_fst_headD_runs (fun line hline => (hlines line hline).2.2) 0
  have hne : firstRun run.text ≠ [] := by
    intro hnil
    rw [hnil] at hrun
    exact ne_nil_of_mem_runs h (List.map_eq_nil_iff.1 hrun.symm)
  rw [alone?, Sentence.read_eq, if_neg hne, toOption_item_congr hrun]

/-! ### Documents -/

namespace Document

/-- The runs of a document. One that is not opened has none. -/
def runs (document : Document) : List Run :=
  match document.content with
  | .ok lines => Treebank.runs 0 lines
  | .error _ => []

/-- The lines of the document are lines of bytes. -/
def OfBytes (document : Document) : Prop :=
  ∀ lines, document.content = .ok lines → ∃ stream : ByteStream, lines = stream.lines

/-- The warning that a run leaves if it has no sentence. -/
def warning? (document : Document) (run : Run) : Option Warning :=
  match run.item with
  | .error error => some (.unread document.name error)
  | .ok s =>
    match s.build with
    | .ok _ => none
    | .error error => some (.unbuilt document.name s.metadata.sentId error)

/-- The warnings about a document: one if it cannot be opened, and otherwise one for each run
without a sentence and one for the line that cannot be had. -/
def warnings (document : Document) : List Warning :=
  match document.content with
  | .error message => [.unopened document.name message]
  | .ok lines =>
    (Treebank.runs 0 lines).filterMap document.warning? ++
      (streamError? 0 lines).toList.map (.unread document.name)

theorem alone?_eq {document : Document} (h : document.OfBytes) {run : Run}
    (hrun : run ∈ document.runs) : run.alone? = run.item.toOption.bind (·.build.toOption) := by
  unfold runs at hrun
  split at hrun
  · next hcontent =>
    obtain ⟨stream, rfl⟩ := h _ hcontent
    exact Run.alone?_eq hrun
  · cases hrun

theorem toOption_outcome (document : Document) (item : Except ReadError Sentence) :
    (document.outcome item).toOption = item.toOption.bind (·.build.toOption) := by
  cases item with
  | error error => rfl
  | ok s =>
    show _ = s.build.toOption
    rw [outcome]
    cases s.build <;> rfl

theorem outcomes_eq (document : Document) {lines : List Line}
    (h : document.content = .ok lines) :
    document.outcomes = (Treebank.runs 0 lines).map (fun run => document.outcome run.item) ++
      (streamError? 0 lines).toList.map fun error => .error (.unread document.name error) := by
  rw [outcomes, h]
  show (Reader.items { rest := lines, number := 0 }).map document.outcome = _
  rw [Reader.items_eq, itemsOf, List.map_append, List.map_map, List.map_map]
  rfl

/-- The sentences of a document are those of its runs. -/
theorem sentences_outcomes {document : Document} (h : document.OfBytes) :
    document.outcomes.filterMap (·.toOption) = document.runs.filterMap Run.alone? := by
  have hruns : document.runs.filterMap Run.alone? =
      document.runs.filterMap fun run => (document.outcome run.item).toOption :=
    List.filterMap_congr fun run hrun => by rw [alone?_eq h hrun, toOption_outcome]
  rw [hruns]
  cases hcontent : document.content with
  | error message =>
    rw [outcomes, runs, hcontent]
    rfl
  | ok lines =>
    have hnone : ((streamError? 0 lines).toList.map fun error =>
        (Except.error (.unread document.name error) : Except Warning Sentence)).filterMap
          (·.toOption) = [] := by
      cases streamError? 0 lines <;> rfl
    rw [outcomes_eq document hcontent, List.filterMap_append, hnone, List.append_nil,
      List.filterMap_map, runs, hcontent]
    rfl

/-- The warnings that are given are one for each run without a sentence, in order. -/
theorem warnings_outcomes (document : Document) :
    document.outcomes.filterMap (fun
      | .ok _ => none
      | .error warning => some warning) = document.warnings := by
  cases hcontent : document.content with
  | error message =>
    rw [outcomes, warnings, hcontent]
    rfl
  | ok lines =>
    rw [outcomes_eq document hcontent, List.filterMap_append, List.filterMap_map, warnings,
      hcontent]
    refine congrArg₂ _ (List.filterMap_congr fun run _ => ?_) ?_
    · rw [Function.comp_apply, warning?]
      unfold outcome
      cases run.item with
      | error error => rfl
      | ok s => cases hbuild : s.build <;> simp [hbuild]
    · cases streamError? 0 lines <;> rfl

/-- A run leaves a warning or a sentence. -/
theorem isSome_warning?_iff {document : Document} (h : document.OfBytes) {run : Run}
    (hrun : run ∈ document.runs) :
    (document.warning? run).isSome = true ↔ run.alone? = none := by
  rw [alone?_eq h hrun, warning?]
  cases run.item with
  | error error => exact ⟨fun _ => rfl, fun _ => rfl⟩
  | ok s =>
    show _ ↔ s.build.toOption = none
    cases hbuild : s.build <;> simp [hbuild, Except.toOption]

theorem exists_build_of_mem_outcomes {document : Document} {s : Sentence}
    (h : .ok s ∈ document.outcomes) : ∃ t : Sentence, t.build = .ok s := by
  have hitem : ∃ item, document.outcome item = .ok s := by
    unfold outcomes at h
    split at h
    · cases List.mem_singleton.1 h
    · obtain ⟨item, -, hitem⟩ := List.mem_map.1 h
      exact ⟨item, hitem⟩
  obtain ⟨item, hitem⟩ := hitem
  have hbuilt := toOption_eq_some_iff.2 hitem
  rw [toOption_outcome] at hbuilt
  obtain ⟨t, -, ht⟩ := Option.bind_eq_some_iff.1 hbuilt
  exact ⟨t, toOption_eq_some_iff.1 ht⟩

end Document

/-! ### Blocks put in -/

/-- The stream with more bytes in front. -/
def Text.ByteStream.after (front : List UInt8) (stream : ByteStream) : ByteStream :=
  { stream with bytes := front ++ stream.bytes }

/-- Neither a line nor a run goes on from the bytes into the stream that they are put in front
of. -/
structure Apart (front : List UInt8) (back : ByteStream) : Prop where
  newline : back = { bytes := [] } ∨ ∀ byte ∈ front.getLast?, byte = 0x0A
  blank : EndsBlank (byteLines front) ∨ StartsBlank back.lines

section Blocks
variable {front : List UInt8} {back : ByteStream}

theorem wholeLines_append (h : ∀ byte ∈ front.getLast?, byte = 0x0A) (bytes : List UInt8) :
    wholeLines (front ++ bytes) = front ++ wholeLines bytes := by
  have hfront : front.reverse.dropWhile (· ≠ 0x0A) = front.reverse := by
    rcases List.eq_nil_or_concat' front with rfl | ⟨before, last, rfl⟩
    · rfl
    · obtain rfl : last = 0x0A := h last (by simp)
      simp
  rw [wholeLines, List.reverse_append, List.dropWhile_append, hfront, wholeLines]
  split
  · next hnone =>
    rw [List.isEmpty_iff.1 hnone, List.reverse_reverse, List.reverse_nil, List.append_nil]
  · rw [List.reverse_append, List.reverse_reverse]

theorem Apart.lines_after (h : Apart front back) :
    (back.after front).lines = byteLines front ++ back.lines := by
  rcases h.newline with rfl | hnewline
  · show byteLines (front ++ []) = byteLines front ++ []
    rw [List.append_nil, List.append_nil]
  · unfold ByteStream.lines ByteStream.after
    cases back.fault? with
    | none => exact byteLines_append hnewline back.bytes
    | some message =>
      show byteLines (wholeLines (front ++ back.bytes)) ++ _ = _
      rw [wholeLines_append hnewline, byteLines_append hnewline, List.append_assoc]

/-- Nothing that comes after a line that cannot be had is read. -/
theorem runs_append_of_fault {front : List Line} (h : ¬ ∀ line ∈ front, line.isOk = true)
    (number : Nat) (back : List Line) : runs number (front ++ back) = runs number front := by
  have hnumbered : ∀ number, numbered number (front ++ back) = numbered number front := by
    induction front with
    | nil => exact absurd (fun line hline => absurd hline List.not_mem_nil) h
    | cons line rest ih =>
      intro number
      cases line with
      | error fault => rfl
      | ok line =>
        have hrest : ¬ ∀ line ∈ rest, line.isOk = true := fun hall =>
          h (List.forall_mem_cons.2 ⟨rfl, hall⟩)
        rw [List.cons_append, numbered, ih hrest, numbered]
  have hfront : front.all Except.isOk = false :=
    Bool.eq_false_iff.2 fun hall => h (List.all_eq_true.1 hall)
  rw [runs, List.all_append, hfront, Bool.false_and, stretches, hnumbered, ← stretches, runs,
    hfront]

/-- The sentences of the blocks of a stream. -/
def sentencesOf (stream : ByteStream) : List Sentence :=
  (runs 0 stream.lines).filterMap Run.alone?

theorem filterMap_alone?_add (number count : Nat) (lines : List Line) :
    (runs (number + count) lines).filterMap Run.alone? =
      (runs number lines).filterMap Run.alone? := by
  rw [runs_add, List.filterMap_map]
  exact List.filterMap_congr fun run _ => run.alone?_shift count

theorem sentencesOf_after (htext : IsText front) (h : Apart front back) :
    sentencesOf (back.after front) = sentencesOf { bytes := front } ++ sentencesOf back := by
  rw [sentencesOf, h.lines_after, runs_append htext h.blank, List.filterMap_append,
    filterMap_alone?_add]
  rfl

theorem sentencesOf_after_of_notText (htext : ¬ IsText front) (h : Apart front back) :
    sentencesOf (back.after front) = sentencesOf { bytes := front } := by
  rw [sentencesOf, h.lines_after, runs_append_of_fault htext]
  rfl

theorem Apart.after {more : List UInt8} (hne : more ≠ []) (hfront : Apart front { bytes := more })
    (hback : Apart more back) : Apart front (back.after more) := by
  have hlines : byteLines more ≠ [] := by
    obtain ⟨byte, rest, rfl⟩ := List.exists_cons_of_ne_nil hne
    exact mt List.map_eq_nil_iff.1 (terminated_ne_nil _ _ _)
  have hmore : ({ bytes := more } : ByteStream) ≠ { bytes := [] } := fun heq =>
    hne (congrArg ByteStream.bytes heq)
  refine ⟨.inr (hfront.newline.resolve_left hmore), hfront.blank.imp_right fun hstarts => ?_⟩
  rw [hback.lines_after]
  intro line hline
  rw [List.head?_append_of_ne_nil _ hlines] at hline
  exact hstarts line hline

/-- Blocks without a sentence make no difference to the sentences. -/
theorem sentencesOf_insert {more : List UInt8} (htext : IsText more)
    (hfront : Apart front { bytes := more }) (hback : Apart more back) (hwhole : Apart front back)
    (h : ∀ run ∈ runs 0 (byteLines more), run.alone? = none) :
    sentencesOf (back.after (front ++ more)) = sentencesOf (back.after front) := by
  have hnone : sentencesOf { bytes := more } = [] := List.filterMap_eq_nil_iff.2 h
  by_cases hne : more = []
  · rw [hne, List.append_nil]
  · have hapart := hfront.after hne hback
    have hafter : back.after (front ++ more) = (back.after more).after front :=
      congrArg (ByteStream.mk · back.fault?) (List.append_assoc front more back.bytes)
    rw [hafter]
    by_cases hfrontText : IsText front
    · rw [sentencesOf_after hfrontText hapart, sentencesOf_after htext hback, hnone,
        List.nil_append, sentencesOf_after hfrontText hwhole]
    · rw [sentencesOf_after_of_notText hfrontText hapart,
        sentencesOf_after_of_notText hfrontText hwhole]

end Blocks

namespace Document

/-- Documents that differ in blocks without a sentence: one can be had from the other by putting
some in and taking others out. -/
inductive Alike : Document → Document → Prop
  | refl (document) : Alike document document
  | insert (name) {front more back} : IsText more → Apart front { bytes := more } →
      Apart more back → Apart front back →
      (∀ run ∈ Treebank.runs 0 (byteLines more), run.alone? = none) →
      Alike { name, content := .ok (back.after front).lines }
        { name, content := .ok (back.after (front ++ more)).lines }
  | symm {document other} : Alike document other → Alike other document
  | trans {document other third} : Alike document other → Alike other third → Alike document third

theorem Alike.sentences_outcomes {document other : Document} (h : Alike document other) :
    document.outcomes.filterMap (·.toOption) = other.outcomes.filterMap (·.toOption) := by
  have hfile : ∀ name (stream : ByteStream),
      (outcomes { name, content := .ok stream.lines }).filterMap (·.toOption) =
        sentencesOf stream := by
    intro name stream
    refine Document.sentences_outcomes fun lines hlines => ?_
    cases hlines
    exact ⟨stream, rfl⟩
  induction h with
  | refl document => rfl
  | insert name htext hfront hback hwhole hnone =>
    rw [hfile, hfile, sentencesOf_insert htext hfront hback hwhole hnone]
  | symm _ ih => exact ih.symm
  | trans _ _ ihfirst ihsecond => exact ihfirst.trans ihsecond

end Document

/-! ### Corpora -/

namespace Corpus

theorem sentences_eq (corpus : Corpus) :
    corpus.sentences = corpus.documents.flatMap (·.outcomes.filterMap (·.toOption)) := by
  rw [sentences, outcomes, List.filterMap_flatMap]

theorem warnings_eq (corpus : Corpus) :
    corpus.warnings = corpus.documents.flatMap (·.warnings) := by
  rw [warnings, outcomes, List.filterMap_flatMap]
  exact List.flatMap_congr fun document _ => document.warnings_outcomes

/-- The sentences of a corpus were built. -/
theorem linked_of_mem_sentences {corpus : Corpus} {s : Sentence} (h : s ∈ corpus.sentences) :
    s.Linked := by
  obtain ⟨outcome, houtcome, hs⟩ := List.mem_filterMap.1 h
  obtain ⟨document, -, hdocument⟩ := List.mem_flatMap.1 houtcome
  rw [toOption_eq_some_iff.1 hs] at hdocument
  obtain ⟨t, ht⟩ := Document.exists_build_of_mem_outcomes hdocument
  exact (Sentence.build_linked ht).1

/-- If no search fails, the matches are those of the sentences, one sentence after the other. -/
theorem matches?_eq {corpus : Corpus} {pattern : Pattern} {overflow : Overflow}
    {found : Sentence → List Match}
    (h : ∀ s ∈ corpus.sentences, s.search? pattern overflow = some (found s)) :
    corpus.matches? pattern overflow =
      some (corpus.sentences.flatMap fun s => (found s).map fun found => (s, found)) := by
  have hsentence : ∀ s ∈ corpus.sentences,
      (do return (← s.search? pattern overflow).map fun found => (s, found)) =
        some ((found s).map fun found => (s, found)) := by
    intro s hs
    rw [h s hs]
    rfl
  rw [matches?, mapM_eq_some_map hsentence]
  rfl

end Corpus

theorem Files.ofBytes_document (files : Files) (path : String) : (files.document path).OfBytes := by
  intro lines h
  unfold document at h
  cases hopen : files.open? path with
  | error message =>
    rw [hopen] at h
    cases h
  | ok stream =>
    rw [hopen] at h
    cases h
    exact ⟨stream, rfl⟩

/-- **The documents of a corpus are read apart from each other, and so are their runs.** The
sentences are those of each run alone, in the order of the paths and of the lines, and so are the
matches, each with its sentence. A run without a sentence leaves one warning, and so does a document
that cannot be opened. Blocks without sentences can be put into a document or taken out of it. -/
theorem corpus_outcome :
    (∀ files paths,
      let corpus := Corpus.ofPaths files paths
      corpus.sentences =
          paths.flatMap (fun path => (files.document path).runs.filterMap Run.alone?) ∧
        corpus.warnings = paths.flatMap (fun path => (files.document path).warnings) ∧
        (∀ path, ∀ run ∈ (files.document path).runs,
          ((files.document path).warning? run).isSome = true ↔ run.alone? = none) ∧
        ∀ (pattern : Pattern) (overflow : Overflow),
          (pattern.Closed → ∀ s ∈ corpus.sentences, pattern.AllowsNext s overflow →
              ∃ found, s.search? pattern overflow = some found) ∧
            ∀ found : Sentence → List Match,
              (∀ s ∈ corpus.sentences, s.search? pattern overflow = some (found s)) →
              corpus.matches? pattern overflow =
                some (corpus.sentences.flatMap fun s => (found s).map fun found => (s, found))) ∧
    ∀ documents others, List.Forall₂ Document.Alike documents others →
      Corpus.sentences ⟨documents⟩ = Corpus.sentences ⟨others⟩ ∧
        ∀ pattern overflow, Corpus.matches? ⟨documents⟩ pattern overflow =
          Corpus.matches? ⟨others⟩ pattern overflow := by
  refine ⟨?_, ?_⟩
  · intro files paths corpus
    refine ⟨?_, ?_, ?_, ?_⟩
    · rw [Corpus.sentences_eq]
      show (paths.map files.document).flatMap _ = _
      rw [List.flatMap_map]
      exact List.flatMap_congr fun path _ =>
        Document.sentences_outcomes (files.ofBytes_document path)
    · rw [Corpus.warnings_eq]
      show (paths.map files.document).flatMap _ = _
      rw [List.flatMap_map]
    · intro path run hrun
      exact Document.isSome_warning?_iff (files.ofBytes_document path) hrun
    · intro pattern overflow
      refine ⟨fun hclosed s hs hnext => ?_, fun found hfound => Corpus.matches?_eq hfound⟩
      exact Sentence.exists_search?_eq (Corpus.linked_of_mem_sentences hs) hclosed hnext
  · intro documents others halike
    have hsentences : Corpus.sentences ⟨documents⟩ = Corpus.sentences ⟨others⟩ := by
      rw [Corpus.sentences_eq, Corpus.sentences_eq]
      induction halike with
      | nil => rfl
      | cons hfirst _ ih => rw [List.flatMap_cons, List.flatMap_cons, hfirst.sentences_outcomes, ih]
    refine ⟨hsentences, fun pattern overflow => ?_⟩
    rw [Corpus.matches?, hsentences, Corpus.matches?]

/-- A file with a faulty line and with a head that is not there, one that is missing, one that a
line without text cuts off, a directory, and a file that is packed. -/
theorem corpus_of_five :
    let word := "1\t_\t_\t_\t_\t_\t0\t_\t_\t_\n"
    let faulty := "1\ta\n\n1\t_\t_\t_\t_\t_\t2\t_\t_\t_\n\n"
    let bytes : String → List UInt8 := (·.toUTF8.data.toList)
    let front := bytes (word ++ "\n")
    let packed : List UInt8 :=
      [0x1F, 0x8B, 0x08, 0x00, 0x00, 0x00, 0x00, 0x00, 0x02, 0x03, 0x33, 0xE4, 0x8C, 0x87, 0x43,
        0x03, 0x08, 0xCD, 0x05, 0x00, 0x22, 0xD5, 0x2D, 0xFB, 0x14, 0x00, 0x00, 0x00]
    let files : Files := {
      stream := fun path =>
        if path = "a" then .ok { bytes := front ++ bytes faulty ++ bytes word }
        else if path = "b" then .ok { bytes := front ++ [0xFF, 0x0A] ++ bytes word }
        else if path = "c" then .ok { bytes := [], fault? := some "Is a directory (os error 21)" }
        else if path = "d.gz" then .ok { bytes := packed }
        else .error "No such file or directory (os error 2)"
      unpack := fun stream =>
        if stream = { bytes := packed } then { bytes := bytes word }
        else { bytes := [], fault? := some "invalid gzip header" }
      glob := fun _ => .ok [] }
    let corpus := Corpus.ofPaths files ["a", "x", "b", "c", "d.gz"]
    let document (bytes : List UInt8) : Document :=
      { name := "a", content := .ok (ByteStream.lines { bytes }) }
    let s := Sentence.afterBuild { words := [{ id := 1, head := some 0 }] }
    corpus.sentences = [s, s, s, s] ∧
      corpus.warnings =
        [.unread "a" { line := 3, fault := .line (.tooFewColumns 2) },
          .unbuilt "a" none (.headOutOfRange 1 2 1),
          .unopened "x" "No such file or directory (os error 2)",
          .unread "b" { line := 3, fault := .stream .notText },
          .unread "c" { line := 1, fault := .stream (.failed "Is a directory (os error 21)") }] ∧
      corpus.matches? { nodes := [{ name := "V" }] } =
        some [(s, ⟨[0], ["V"]⟩), (s, ⟨[0], ["V"]⟩), (s, ⟨[0], ["V"]⟩), (s, ⟨[0], ["V"]⟩)] ∧
      Corpus.sentences ⟨[document (front ++ bytes word)]⟩ =
        Corpus.sentences ⟨[document (front ++ bytes faulty ++ bytes word)]⟩ := by
  intro word faulty bytes front packed files corpus document s
  obtain ⟨hsentences, hwarnings, -, hmatches⟩ :=
    corpus_outcome.1 files ["a", "x", "b", "c", "d.gz"]
  have hfour : corpus.sentences = [s, s, s, s] := by
    rw [hsentences]
    decide +kernel
  refine ⟨hfour, ?_, ?_, ?_⟩
  · rw [hwarnings]
    decide +kernel
  · obtain ⟨hclosed, hall⟩ := hmatches { nodes := [{ name := "V" }] } .wraps
    obtain ⟨found, hfound⟩ := hclosed ⟨by simp, by simp⟩ s (by rw [hfour]; simp)
      (Pattern.allowsNext_wraps _ s)
    have hone : s.search? { nodes := [{ name := "V" }] } = some [⟨[0], ["V"]⟩] := by
      decide +kernel
    have hall := hall (fun _ => found) (by rw [hfour]; simp [hfound])
    rw [Option.some.inj (hfound.symm.trans hone), hfour] at hall
    exact hall
  · have halike : Document.Alike (document (front ++ bytes word))
        (document (front ++ bytes faulty ++ bytes word)) :=
      @Document.Alike.insert "a" front (bytes faulty) { bytes := bytes word }
        (by decide +kernel) ⟨by decide +kernel, by decide +kernel⟩
        ⟨by decide +kernel, by decide +kernel⟩ ⟨by decide +kernel, by decide +kernel⟩
        (by decide +kernel)
    exact (corpus_outcome.2 _ _ (.cons halike .nil)).1

end Treebank
