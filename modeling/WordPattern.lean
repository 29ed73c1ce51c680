import WordPattern.Automaton.Cycle
import WordPattern.Main
import WordPattern.Proofs.Automaton.Reachable
import WordPattern.Proofs.Fallible
import WordPattern.Proofs.Partition.Basic
import WordPattern.Proofs.Partition.History
import WordPattern.Proofs.Partition.Incoming
import WordPattern.Proofs.Partition.Worklist
import WordPattern.Proofs.Partition.Queue
import WordPattern.Proofs.Automaton.Alike
import WordPattern.Proofs.Partition.Division
import WordPattern.Proofs.Partition.Refinement
import WordPattern.Proofs.Partition.Coarsest
import WordPattern.Proofs.Automaton.Quotient
import WordPattern.Proofs.Automaton.Minimal
import WordPattern.Proofs.Expr.Language
import WordPattern.Proofs.Expr.Alternation
import WordPattern.Proofs.Expr.Proper
import WordPattern.Proofs.Expr.Equations
import WordPattern.Proofs.Expr.Solution
import WordPattern.Proofs.Pattern.Grammar
import WordPattern.Proofs.Pattern.Escaping
import WordPattern.Proofs.Pattern.CharClass
import WordPattern.Proofs.Pattern.Meaning
import WordPattern.Proofs.Pattern.Reading
import WordPattern.Proofs.Pattern.Skipping
import WordPattern.Proofs.Pattern.Runs
import WordPattern.Proofs.Pattern.Rendering
import WordPattern.Proofs.Pattern.Compression
import WordPattern.Proofs.Automaton.Branching
import WordPattern.Proofs.Trie
import WordPattern.Proofs.Generate
import WordPattern.Proofs.Expr.Derivation
import WordPattern.Proofs.Expr.Unambiguous
import WordPattern.Proofs.Expr.Prefix
import WordPattern.Proofs.Expr.Determinism
import WordPattern.Proofs.Automaton.Residual
import WordPattern.Proofs.Trie.Minimal
import WordPattern.Proofs.Expr.Steady
import WordPattern.Proofs.Pattern.Longest
import WordPattern.Proofs.Searching
import WordPattern.Proofs.Automaton.Reduced
import WordPattern.Proofs.Automaton.Cycle
import WordPattern.Proofs.Outcome
import WordPattern.Proofs.Expr.Elimination
import WordPattern.Proofs.Expr.NormalForm
import WordPattern.Proofs.Automaton.Preorder
import WordPattern.Proofs.Expr.Passage
import WordPattern.Proofs.Expr.Adjacent
import WordPattern.Proofs.Expr.Bottleneck
import WordPattern.Proofs.Trie.Adjacent
import WordPattern.Proofs.Expr.Length
import WordPattern.Proofs.Automaton.Tour
import WordPattern.Proofs.Automaton.Idempotent
import WordPattern.Proofs.Automaton.Renaming
import WordPattern.Proofs.Expr.Renaming
import WordPattern.Proofs.Trie.Renaming
import WordPattern.Proofs.Trie.Filling
import WordPattern.Proofs.Trie.Repeats
import WordPattern.Proofs.Partition.Halving
import WordPattern.Proofs.Trie.Acyclic
import WordPattern.Proofs.CommandLine
import WordPattern.Proofs.Automaton.DepthFirst
import WordPattern.Proofs.Expr.Exposed
import WordPattern.Proofs.Automaton.Dangling
import WordPattern.Proofs.Automaton.Unreached
import WordPattern.Proofs.Automaton.Lookups
import WordPattern.Proofs.Automaton.Acyclic
