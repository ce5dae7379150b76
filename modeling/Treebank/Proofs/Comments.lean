import Treebank.Format.Block
import Treebank.Proofs.Cutting

/-! Comments written and read back.

A comment sets one value, which is trimmed, or is kept as it is (`addComment_cases`). So
metadata that was read is legible: its values are trimmed, and its comments are none that
would set a value. Legible metadata is what its comments say when they are taken up in
turn (`addComments_write`). -/
namespace Treebank
open Text

namespace Metadata

/-- The values that comments set. -/
inductive Field where
  | newdoc
  | newpar
  | sentId
  | text
deriving DecidableEq

def get (metadata : Metadata) : Field → Option String
  | .newdoc => metadata.newdoc
  | .newpar => metadata.newpar
  | .sentId => metadata.sentId
  | .text => metadata.text

def set (metadata : Metadata) (value? : Option String) : Field → Metadata
  | .newdoc => { metadata with newdoc := value? }
  | .newpar => { metadata with newpar := value? }
  | .sentId => { metadata with sentId := value? }
  | .text => { metadata with text := value? }

def values (metadata : Metadata) : List String :=
  metadata.newdoc.toList ++ metadata.newpar.toList ++ metadata.sentId.toList ++
    metadata.text.toList

def texts (metadata : Metadata) : List String := metadata.values ++ metadata.comments

theorem mem_values {metadata : Metadata} {value : String} :
    value ∈ metadata.values ↔ ∃ field, metadata.get field = some value := by
  simp only [values, List.mem_append, Option.mem_toList, or_assoc]
  constructor
  · rintro (h | h | h | h)
    · exact ⟨.newdoc, h⟩
    · exact ⟨.newpar, h⟩
    · exact ⟨.sentId, h⟩
    · exact ⟨.text, h⟩
  · rintro ⟨field, h⟩
    cases field with
    | newdoc => exact .inl h
    | newpar => exact .inr (.inl h)
    | sentId => exact .inr (.inr (.inl h))
    | text => exact .inr (.inr (.inr h))

@[simp] theorem get_set_self (metadata : Metadata) (value? : Option String) (field : Field) :
    (metadata.set value? field).get field = value? := by
  cases field <;> rfl

theorem get_set_of_ne (metadata : Metadata) (value? : Option String) {field other : Field}
    (h : other ≠ field) : (metadata.set value? field).get other = metadata.get other := by
  cases field <;> cases other <;> first | rfl | exact absurd rfl h

@[simp] theorem comments_set (metadata : Metadata) (value? : Option String) (field : Field) :
    (metadata.set value? field).comments = metadata.comments := by
  cases field <;> rfl

theorem set_get (metadata : Metadata) (field : Field) :
    metadata.set (metadata.get field) field = metadata := by
  cases field <;> rfl

theorem mem_values_set {metadata : Metadata} {value other : String} {field : Field}
    (h : other ∈ (metadata.set (some value) field).values) :
    other = value ∨ other ∈ metadata.values := by
  obtain ⟨place, hplace⟩ := mem_values.1 h
  by_cases hsame : place = field
  · rw [hsame, get_set_self] at hplace
    exact .inl (Option.some.inj hplace).symm
  · rw [get_set_of_ne _ _ hsame] at hplace
    exact .inr (mem_values.2 ⟨place, hplace⟩)

/-- The text is kept as a comment, whatever the metadata are. -/
def IsKept (text : String) : Prop :=
  ∀ metadata : Metadata,
    metadata.addComment (' ' :: text.toList) =
      { metadata with comments := metadata.comments ++ [text] }

structure Legible (metadata : Metadata) : Prop where
  value : ∀ value ∈ metadata.values, trim value.toList = value.toList
  comment : ∀ comment ∈ metadata.comments, IsKept comment

/-! ### Taking up a comment -/

/-- A comment sets a value or is kept. -/
theorem addComment_cases (comment : List Char) :
    (∃ field value, trim value.toList = value.toList ∧ (∀ c ∈ value.toList, c ∈ comment) ∧
      ∀ metadata : Metadata, metadata.addComment comment = metadata.set (some value) field) ∨
    ∀ metadata : Metadata, metadata.addComment comment =
      { metadata with comments := metadata.comments ++ [String.ofList (trim comment)] } := by
  cases hsplit : splitFirst '=' (trim comment) with
  | none =>
    by_cases hdoc : String.ofList (trim comment) = "newdoc" ∨
        String.ofList (trim comment) = "newdoc id"
    · refine .inl ⟨.newdoc, "", rfl, by simp, fun metadata => ?_⟩
      rcases hdoc with hname | hname <;> simp [addComment, hsplit, hname, set]
    by_cases hpar : String.ofList (trim comment) = "newpar" ∨
        String.ofList (trim comment) = "newpar id"
    · refine .inl ⟨.newpar, "", rfl, by simp, fun metadata => ?_⟩
      rcases hpar with hname | hname <;> simp [addComment, hsplit, hname, set]
    -- No other key sets a value without an equals sign.
    refine .inr fun metadata => ?_
    simp only [addComment, hsplit]
    split <;> simp_all
  | some parts =>
    obtain ⟨key, value⟩ := parts
    obtain ⟨hwhole, -⟩ := eq_append_of_splitFirst hsplit
    have htrim : trim (String.ofList (trim value)).toList = (String.ofList (trim value)).toList := by
      simp [trim_trim]
    have hchars : ∀ c ∈ (String.ofList (trim value)).toList, c ∈ comment := by
      intro c hc
      rw [String.toList_ofList] at hc
      refine mem_of_mem_trim (hwhole ▸ ?_)
      exact List.mem_append_right _ (List.mem_cons_of_mem _ (mem_of_mem_trim hc))
    by_cases hdoc : String.ofList (trim key) = "newdoc" ∨ String.ofList (trim key) = "newdoc id"
    · refine .inl ⟨.newdoc, _, htrim, hchars, fun metadata => ?_⟩
      rcases hdoc with hname | hname <;> simp [addComment, hsplit, hname, set]
    by_cases hpar : String.ofList (trim key) = "newpar" ∨ String.ofList (trim key) = "newpar id"
    · refine .inl ⟨.newpar, _, htrim, hchars, fun metadata => ?_⟩
      rcases hpar with hname | hname <;> simp [addComment, hsplit, hname, set]
    by_cases hid : String.ofList (trim key) = "sent_id"
    · refine .inl ⟨.sentId, _, htrim, hchars, fun metadata => ?_⟩
      simp [addComment, hsplit, hid, set]
    by_cases htext : String.ofList (trim key) = "text"
    · refine .inl ⟨.text, _, htrim, hchars, fun metadata => ?_⟩
      simp [addComment, hsplit, htext, set]
    refine .inr fun metadata => ?_
    simp only [addComment, hsplit]
    split <;> simp_all

theorem addComment_congr {a b : List Char} (h : trim a = trim b) (metadata : Metadata) :
    metadata.addComment a = metadata.addComment b := by
  unfold addComment
  rw [h]

theorem legible_empty : Legible {} := ⟨by simp [values], by simp⟩

theorem legible_addComment {metadata : Metadata} (h : metadata.Legible) (comment : List Char) :
    (metadata.addComment comment).Legible := by
  rcases addComment_cases comment with ⟨field, value, htrim, -, hset⟩ | hkept
  · rw [hset]
    refine ⟨fun other hother => ?_, comments_set metadata _ field ▸ h.comment⟩
    rcases mem_values_set hother with rfl | hold
    · exact htrim
    · exact h.value other hold
  · rw [hkept]
    refine ⟨h.value, fun other hother => ?_⟩
    rcases List.mem_append.1 hother with hold | hnew
    · exact h.comment other hold
    · rw [List.mem_singleton.1 hnew]
      intro metadata
      have hsame : trim (' ' :: (String.ofList (trim comment)).toList) = trim comment := by
        rw [String.toList_ofList, trim_blank_cons rfl, trim_trim]
      rw [addComment_congr hsame, hkept]

theorem mem_of_mem_texts_addComment {metadata : Metadata} {comment : List Char} {text : String}
    (h : text ∈ (metadata.addComment comment).texts) :
    text ∈ metadata.texts ∨ ∀ c ∈ text.toList, c ∈ comment := by
  rcases addComment_cases comment with ⟨field, value, -, hchars, hset⟩ | hkept
  · rw [hset] at h
    rcases List.mem_append.1 h with hvalue | hcomment
    · rcases mem_values_set hvalue with rfl | hold
      · exact .inr hchars
      · exact .inl (List.mem_append_left _ hold)
    · rw [comments_set] at hcomment
      exact .inl (List.mem_append_right _ hcomment)
  · rw [hkept] at h
    rcases List.mem_append.1 h with hvalue | hcomment
    · exact .inl (List.mem_append_left _ hvalue)
    · rcases List.mem_append.1 hcomment with hold | hnew
      · exact .inl (List.mem_append_right _ hold)
      · rw [List.mem_singleton.1 hnew, String.toList_ofList]
        exact .inr fun c hc => mem_of_mem_trim hc

/-! ### Written comments -/

namespace Field

/-- The key under which a value is written. -/
def key : Field → String
  | newdoc => "newdoc id"
  | newpar => "newpar id"
  | sentId => "sent_id"
  | text => "text"

/-- What stands before a value in its comment. -/
def opening : Field → String
  | newdoc => "newdoc" ++ " id = "
  | newpar => "newpar" ++ " id = "
  | sentId => "sent_id = "
  | text => "text = "

/-- The comment for a value, if there is one. -/
def write (value? : Option String) : Field → List String
  | newdoc => startComment "newdoc" value?
  | newpar => startComment "newpar" value?
  | sentId => (value?.map ("sent_id = " ++ ·)).toList
  | text => (value?.map ("text = " ++ ·)).toList

theorem write_none (field : Field) : field.write none = [] := by
  cases field <;> rfl

/-- A value stands after its opening, save for an empty one that only starts something. -/
theorem write_some (field : Field) (value : String) :
    field.write (some value) = [field.opening ++ value] ∨
      value = "" ∧ (field = .newdoc ∧ field.write (some value) = ["newdoc"] ∨
        field = .newpar ∧ field.write (some value) = ["newpar"]) := by
  by_cases hvalue : value = ""
  · cases field with
    | newdoc => exact .inr ⟨hvalue, .inl ⟨rfl, by rw [hvalue]; rfl⟩⟩
    | newpar => exact .inr ⟨hvalue, .inr ⟨rfl, by rw [hvalue]; rfl⟩⟩
    | sentId => exact .inl rfl
    | text => exact .inl rfl
  · left
    cases field with
    | newdoc => simp [write, startComment, opening]
    | newpar => simp [write, startComment, opening]
    | sentId => rfl
    | text => rfl

end Field

theorem write_eq (metadata : Metadata) :
    metadata.write = Field.newdoc.write (metadata.get .newdoc) ++
      Field.newpar.write (metadata.get .newpar) ++ Field.sentId.write (metadata.get .sentId) ++
      Field.text.write (metadata.get .text) ++ metadata.comments := rfl

theorem write_ne_nil {metadata : Metadata} {field : Field} {value : String}
    (h : metadata.get field = some value) : metadata.write ≠ [] := by
  have hcomment : field.write (some value) ≠ [] := by
    rcases field.write_some value with hwrite | ⟨-, ⟨-, hwrite⟩ | ⟨-, hwrite⟩⟩ <;> simp [hwrite]
  rw [write_eq]
  cases field <;> simp [h, hcomment]

theorem write_addComment_ne_nil (metadata : Metadata) (comment : List Char) :
    (metadata.addComment comment).write ≠ [] := by
  rcases addComment_cases comment with ⟨field, value, -, -, hset⟩ | hkept
  · rw [hset]
    exact write_ne_nil (get_set_self metadata (some value) field)
  · rw [hkept]
    simp [write]

theorem addComment_opening {value : String} (h : trim value.toList = value.toList) (field : Field)
    (metadata : Metadata) :
    metadata.addComment (' ' :: (field.opening ++ value).toList) =
      metadata.set (some value) field := by
  have hopening : field.opening.toList = field.key.toList ++ [' ', '=', ' '] := by
    cases field <;> decide
  have hstart : field.key.toList.head?.map isBlank = some false := by cases field <;> rfl
  have hequals : '=' ∉ field.key.toList := by cases field <;> decide
  have hkey : String.ofList (trim (field.key.toList ++ [' '])) = field.key := by
    cases field <;> decide
  obtain ⟨rest, hsplit, hrest⟩ := splitFirst_trim_entry hstart hequals h
  have htext : (field.opening ++ value).toList =
      field.key.toList ++ ' ' :: '=' :: ' ' :: value.toList := by
    rw [String.toList_append, hopening, List.append_assoc]
    rfl
  simp only [addComment, htext, hsplit, hkey, hrest, String.ofList_toList]
  cases field <;> rfl

/-- Takes up comments as they are written, after a blank. -/
def addComments (metadata : Metadata) (comments : List String) : Metadata :=
  comments.foldl (fun metadata comment => metadata.addComment (' ' :: comment.toList)) metadata

theorem addComments_append (metadata : Metadata) (a b : List String) :
    metadata.addComments (a ++ b) = (metadata.addComments a).addComments b := List.foldl_append

@[simp] theorem addComments_nil (metadata : Metadata) : metadata.addComments [] = metadata := rfl

@[simp] theorem addComments_singleton (metadata : Metadata) (comment : String) :
    metadata.addComments [comment] = metadata.addComment (' ' :: comment.toList) := rfl

theorem addComments_field {value? : Option String} {field : Field} {metadata : Metadata}
    (h : ∀ value ∈ value?, trim value.toList = value.toList) (hnone : metadata.get field = none) :
    metadata.addComments (field.write value?) = metadata.set value? field := by
  cases value? with
  | none => rw [field.write_none, addComments_nil, ← hnone, set_get]
  | some value =>
    rcases field.write_some value with hwrite | ⟨rfl, ⟨rfl, hwrite⟩ | ⟨rfl, hwrite⟩⟩
    · rw [hwrite, addComments_singleton, addComment_opening (h value rfl)]
    · rw [hwrite, addComments_singleton]
      rfl
    · rw [hwrite, addComments_singleton]
      rfl

theorem addComments_kept {comments : List String} {metadata : Metadata}
    (h : ∀ comment ∈ comments, IsKept comment) :
    metadata.addComments comments =
      { metadata with comments := metadata.comments ++ comments } := by
  induction comments generalizing metadata with
  | nil => rw [List.append_nil]; rfl
  | cons comment rest ih =>
    obtain ⟨hcomment, hrest⟩ := List.forall_mem_cons.1 h
    show (metadata.addComment _).addComments rest = _
    rw [hcomment metadata, ih hrest]
    simp

theorem addComments_write {metadata : Metadata} (h : metadata.Legible) :
    addComments {} metadata.write = metadata := by
  have hvalue : ∀ field, ∀ value ∈ metadata.get field, trim value.toList = value.toList :=
    fun field value hset => h.value value (mem_values.2 ⟨field, hset⟩)
  rw [write_eq, addComments_append, addComments_append, addComments_append, addComments_append,
    addComments_field (hvalue .newdoc) rfl, addComments_field (hvalue .newpar) rfl,
    addComments_field (hvalue .sentId) rfl, addComments_field (hvalue .text) rfl,
    addComments_kept h.comment]
  rfl

/-! ### Characters of written comments -/

/-- No written comment ends before its line does. -/
theorem not_mem_write {c : Char} {metadata : Metadata} (hc : c = '\n' ∨ c = '\r')
    (h : ∀ text ∈ metadata.texts, c ∉ text.toList) :
    ∀ comment ∈ metadata.write, c ∉ comment.toList := by
  obtain ⟨hvalues, hcomments⟩ := List.forall_mem_append.1 h
  have hopening : ∀ field : Field, c ∉ field.opening.toList := by
    intro field
    rcases hc with rfl | rfl <;> cases field <;> decide
  have hstart : c ∉ "newdoc".toList ∧ c ∉ "newpar".toList := by
    rcases hc with rfl | rfl <;> decide
  have hfield : ∀ field : Field, ∀ comment ∈ field.write (metadata.get field),
      c ∉ comment.toList := by
    intro field
    cases hget : metadata.get field with
    | none => simp [field.write_none]
    | some value =>
      have hvalue := hvalues value (mem_values.2 ⟨field, hget⟩)
      rcases field.write_some value with hwrite | ⟨-, ⟨-, hwrite⟩ | ⟨-, hwrite⟩⟩ <;> rw [hwrite]
      · refine List.forall_mem_singleton.2 ?_
        rw [String.toList_append, List.mem_append, not_or]
        exact ⟨hopening field, hvalue⟩
      · exact List.forall_mem_singleton.2 hstart.1
      · exact List.forall_mem_singleton.2 hstart.2
  simp only [write_eq, List.forall_mem_append]
  exact ⟨⟨⟨⟨hfield .newdoc, hfield .newpar⟩, hfield .sentId⟩, hfield .text⟩, hcomments⟩

end Metadata

end Treebank
