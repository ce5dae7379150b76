import Treebank.Proofs.Words
import Treebank.Search

/-! What a pattern asks for.

`Pattern.Holds` says of the nodes that the variables stand for, given as a function, that
they are a match. It speaks of words and their links only, and can be decided. -/
namespace Treebank

/-- The order of the ids is there or not, as the constraint has it. After the greatest number comes
0 again. -/
def OrderConstraint.Holds (order : OrderConstraint) (s : Sentence) (node : Nat → Nat) : Prop :=
  (if order.strict
    then wrappedSum (s.wordAt (node order.earlier)).id 1 = (s.wordAt (node order.later)).id
    else (s.wordAt (node order.earlier)).id < (s.wordAt (node order.later)).id) ↔
    order.negated = false

/-- The label is one of those given, if any are. -/
def Accepts (labels : List String) (label : String) : Prop := labels = [] ∨ label ∈ labels

/-- The word at `dep` hangs from the one at `head` by one of the labels. -/
def Sentence.Hangs (s : Sentence) (head dep : Nat) (labels : List String) : Prop :=
  (s.wordAt dep).links.head = some head ∧ Accepts labels (s.wordAt dep).deprel

/-- A dependent of the word at `head` has one of the labels. -/
def Sentence.HasDependent (s : Sentence) (head : Nat) (labels : List String) : Prop :=
  ∃ dep ∈ (s.wordAt head).links.dependents, Accepts labels (s.wordAt dep).deprel

/-- The word at `dep` hangs from some word by one of the labels. -/
def Sentence.HasHead (s : Sentence) (dep : Nat) (labels : List String) : Prop :=
  (s.wordAt dep).links.head ≠ none ∧ Accepts labels (s.wordAt dep).deprel

/-- Between two variables the relation is there or not, as the constraint has it; a relation with
one end that is no variable is never there. -/
def RelationConstraint.Holds (relation : RelationConstraint) (s : Sentence) (node : Nat → Nat) :
    Prop :=
  match relation.head, relation.dep with
  | .bound head, .bound dep =>
    s.Hangs (node head) (node dep) relation.labels ↔ relation.negated = false
  | .bound head, .unbound _ => ¬ s.HasDependent (node head) relation.labels
  | .unbound _, .bound dep => ¬ s.HasHead (node dep) relation.labels
  | .unbound _, .unbound _ => True

/-- All orders and relations of the pattern hold of the nodes that stand for its variables. -/
def Pattern.Fits (pattern : Pattern) (s : Sentence) (node : Nat → Nat) : Prop :=
  (∀ order ∈ pattern.orders, order.Holds s node) ∧
    ∀ relation ∈ pattern.relations, relation.Holds s node

/-- The nodes that stand for the variables are accepted by their constraints and fit together. -/
structure Pattern.Holds (pattern : Pattern) (s : Sentence) (node : Nat → Nat) : Prop where
  accepts : ∀ var (constraint : NodeConstraint), pattern.nodes[var]? = some constraint →
    constraint.accepts (s.wordAt (node var)).toColumns = true
  fits : pattern.Fits s node

/-- No strict order, for which the id after that of a word is looked for, ends the program. -/
def Pattern.AllowsNext (pattern : Pattern) (s : Sentence) (overflow : Overflow) : Prop :=
  ∀ order ∈ pattern.orders, order.strict = true → ∀ word ∈ s.words, overflow.Allows word.id 1

theorem Pattern.allowsNext_wraps (pattern : Pattern) (s : Sentence) :
    pattern.AllowsNext s .wraps :=
  fun _ _ _ _ _ => .inl rfl

/-! ### Deciding -/

instance (order : OrderConstraint) (s : Sentence) (node : Nat → Nat) :
    Decidable (order.Holds s node) :=
  inferInstanceAs (Decidable (_ ↔ _))

instance (labels : List String) (label : String) : Decidable (Accepts labels label) :=
  inferInstanceAs (Decidable (_ ∨ _))

instance (s : Sentence) (head dep : Nat) (labels : List String) :
    Decidable (s.Hangs head dep labels) :=
  inferInstanceAs (Decidable (_ ∧ _))

instance (s : Sentence) (head : Nat) (labels : List String) :
    Decidable (s.HasDependent head labels) :=
  inferInstanceAs (Decidable (∃ dep ∈ (s.wordAt head).links.dependents, _))

instance (s : Sentence) (dep : Nat) (labels : List String) : Decidable (s.HasHead dep labels) :=
  inferInstanceAs (Decidable (_ ∧ _))

instance (relation : RelationConstraint) (s : Sentence) (node : Nat → Nat) :
    Decidable (relation.Holds s node) :=
  match h : relation.head, h' : relation.dep with
  | .bound _, .bound _ => decidable_of_iff (_ ↔ _) (by rw [RelationConstraint.Holds, h, h'])
  | .bound _, .unbound _ => decidable_of_iff (¬ _) (by rw [RelationConstraint.Holds, h, h'])
  | .unbound _, .bound _ => decidable_of_iff (¬ _) (by rw [RelationConstraint.Holds, h, h'])
  | .unbound _, .unbound _ => isTrue (by rw [RelationConstraint.Holds, h, h']; trivial)

instance (pattern : Pattern) (s : Sentence) (node : Nat → Nat) :
    Decidable (pattern.Fits s node) :=
  inferInstanceAs (Decidable (_ ∧ _))

theorem RelationConstraint.acceptsLabel_eq (relation : RelationConstraint) (label : String) :
    relation.acceptsLabel label = decide (Accepts relation.labels label) := by
  unfold RelationConstraint.acceptsLabel Accepts
  cases relation.labels <;> simp

/-! ### Variables -/

/-- An end that is a variable is one of the first `count`. -/
def Endpoint.IsBelow (count : Nat) : Endpoint → Prop
  | .bound var => var < count
  | .unbound _ => True

instance (count : Nat) : DecidablePred (Endpoint.IsBelow count)
  | .bound var => inferInstanceAs (Decidable (var < count))
  | .unbound _ => isTrue trivial

/-- The constraints speak of variables that are there. -/
structure Pattern.Closed (pattern : Pattern) : Prop where
  orders : ∀ order ∈ pattern.orders, order.earlier < pattern.size ∧ order.later < pattern.size
  relations : ∀ relation ∈ pattern.relations,
    relation.head.IsBelow pattern.size ∧ relation.dep.IsBelow pattern.size

end Treebank
