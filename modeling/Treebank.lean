import Treebank.Corpus.Basic
import Treebank.Pattern.Indexed
import Treebank.Sentence.Navigation
import Treebank.Sentence.Renumber
import Treebank.Sentence.Surface
import Treebank.Session
import Treebank.Proofs.Forest
import Treebank.Proofs.Rebuild
import Treebank.Proofs.Renumbering
import Treebank.Proofs.Subtrees
import Treebank.Proofs.References
import Treebank.Proofs.LinkIndexes
import Treebank.Proofs.Positions
import Treebank.Proofs.Compile
import Treebank.Proofs.Refusals
import Treebank.Proofs.Attributes
import Treebank.Proofs.Indexed
import Treebank.Proofs.Withouts
import Treebank.Proofs.ClauseOrder
import Treebank.Proofs.RequestReading
import Treebank.Proofs.RoundTrip
import Treebank.Proofs.Written
import Treebank.Proofs.WrittenAgain
import Treebank.Proofs.Corpora
import Treebank.Proofs.Headwords
import Treebank.Proofs.LineGrammar
import Treebank.Proofs.IntroducedLabels
import Treebank.Proofs.FeatureMap
import Treebank.Proofs.BareValues
import Treebank.Proofs.MiscEntries
import Treebank.Proofs.RunningText
import Treebank.Proofs.SpaceEscapes
