import LetTyping.Main
import LetTyping.Check
import LetTyping.Infer
import LetTyping.Unify
import LetTyping.Event
import LetTyping.Typing
import LetTyping.Ty.Naming
import LetTyping.Tree.Render
import LetTyping.Tree.Parse
import LetTyping.Text.Combining
import LetTyping.Proofs.Term
import LetTyping.Proofs.Acyclic
import LetTyping.Proofs.Solution
import LetTyping.Proofs.Trail
import LetTyping.Proofs.Compression
import LetTyping.Proofs.Depth
import LetTyping.Proofs.MostGeneral
import LetTyping.Proofs.Clash
import LetTyping.Proofs.Table
import LetTyping.Proofs.Typing
import LetTyping.Proofs.Evaluation
import LetTyping.Proofs.Instance
import LetTyping.Proofs.Region
import LetTyping.Proofs.Derivation
import LetTyping.Proofs.Soundness
import LetTyping.Proofs.Completeness
import LetTyping.Proofs.Principality
import LetTyping.Proofs.Mirror
import LetTyping.Proofs.Lockstep
import LetTyping.Proofs.Separation
import LetTyping.Proofs.Memo
import LetTyping.Proofs.Reproduction
import LetTyping.Proofs.History
import LetTyping.Proofs.Signature
import LetTyping.Proofs.Workspace
import LetTyping.Proofs.Grammar
import LetTyping.Proofs.Parsing
import LetTyping.Proofs.Scanning
import LetTyping.Proofs.RoundTrip
import LetTyping.Proofs.Result
import LetTyping.Proofs.Names
import LetTyping.Proofs.Hygiene
import LetTyping.Proofs.Composition
import LetTyping.Proofs.Checking
import LetTyping.Proofs.Blame
import LetTyping.Proofs.Reordering
import LetTyping.Proofs.Agreement
import LetTyping.Proofs.Order
import LetTyping.Proofs.Assembly
import LetTyping.Proofs.TypeText
import LetTyping.Proofs.Builtins
import LetTyping.Proofs.Coverage
import LetTyping.Proofs.Form
import LetTyping.Proofs.Faithful
import LetTyping.Proofs.Fatal
import LetTyping.Proofs.Freshness
import LetTyping.Proofs.Plain
import LetTyping.Proofs.Recursion
import LetTyping.Proofs.Abreast
import LetTyping.Proofs.Layout
import LetTyping.Proofs.Shadowing
import LetTyping.Proofs.Isolation
import LetTyping.Proofs.References
import LetTyping.Proofs.Sites
import LetTyping.Proofs.Reported
import LetTyping.Proofs.Lookahead
import LetTyping.Proofs.FirstFault
import LetTyping.Proofs.Nesting
import LetTyping.Proofs.Spacing
import LetTyping.Proofs.Occurrences
import LetTyping.Proofs.Listing
import LetTyping.Proofs.Repetition
import LetTyping.Proofs.Unbounded
import LetTyping.Proofs.Descent
import LetTyping.Proofs.Progress
import LetTyping.Proofs.Ending
