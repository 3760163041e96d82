import MaximalMunch.Ascending
import MaximalMunch.CharClass.Atoms
import MaximalMunch.CharClass.Basic
import MaximalMunch.CharClass.Label
import MaximalMunch.CharClass.Tagged
import MaximalMunch.CommandLine.FileTree
import MaximalMunch.CommandLine.Host
import MaximalMunch.CommandLine.PackTables
import MaximalMunch.CommandLine.Path
import MaximalMunch.CommandLine.Sample
import MaximalMunch.CommandLine.ScanFile
import MaximalMunch.CommandLine.Session
import MaximalMunch.Definition.Builder
import MaximalMunch.Definition.Error
import MaximalMunch.Definition.Event
import MaximalMunch.Definition.Line
import MaximalMunch.Definition.Reading
import MaximalMunch.Definition.TokenAutomaton
import MaximalMunch.Dfa.Basic
import MaximalMunch.Dfa.Listing
import MaximalMunch.Dfa.Scanning
import MaximalMunch.Dfa.Subsets
import MaximalMunch.Json.Basic
import MaximalMunch.Json.Printer
import MaximalMunch.Json.Reader
import MaximalMunch.Main
import MaximalMunch.Nfa.Basic
import MaximalMunch.Nfa.Closure
import MaximalMunch.Nfa.Fragment
import MaximalMunch.Numbering
import MaximalMunch.Proofs.CharClass.Algebra
import MaximalMunch.Proofs.CharClass.Atoms
import MaximalMunch.Proofs.CharClass.Label
import MaximalMunch.Proofs.CharClass.Partition
import MaximalMunch.Proofs.CharClass.Sets
import MaximalMunch.Proofs.CharClass.Surrogates
import MaximalMunch.Proofs.CharClass.Tagged
import MaximalMunch.Proofs.CharClass.Unicode
import MaximalMunch.Proofs.Definition.Atomicity
import MaximalMunch.Proofs.Definition.Calls
import MaximalMunch.Proofs.Definition.Inlining
import MaximalMunch.Proofs.Definition.Invariant
import MaximalMunch.Proofs.Definition.Languages
import MaximalMunch.Proofs.Definition.Line
import MaximalMunch.Proofs.Definition.Master
import MaximalMunch.Proofs.Definition.Reading
import MaximalMunch.Proofs.Definition.TokenAutomaton
import MaximalMunch.Proofs.Definition.Unused
import MaximalMunch.Proofs.Definition.Viable
import MaximalMunch.Proofs.Dfa.BreadthFirst
import MaximalMunch.Proofs.Dfa.Canonical
import MaximalMunch.Proofs.Dfa.Correctness
import MaximalMunch.Proofs.Dfa.Edges
import MaximalMunch.Proofs.Dfa.Liveness
import MaximalMunch.Proofs.Dfa.Renaming
import MaximalMunch.Proofs.Dfa.Subsets
import MaximalMunch.Proofs.Dfa.Termination
import MaximalMunch.Proofs.Json.RoundTrip
import MaximalMunch.Proofs.Nfa.Alternatives
import MaximalMunch.Proofs.Nfa.Closure
import MaximalMunch.Proofs.Nfa.Composition
import MaximalMunch.Proofs.Nfa.Fragments
import MaximalMunch.Proofs.Nfa.Ids
import MaximalMunch.Proofs.Nfa.Labels
import MaximalMunch.Proofs.Nfa.Marks
import MaximalMunch.Proofs.Nfa.Operations
import MaximalMunch.Proofs.Nfa.Paths
import MaximalMunch.Proofs.Nfa.Productive
import MaximalMunch.Proofs.Nfa.Renaming
import MaximalMunch.Proofs.Nfa.Sealed
import MaximalMunch.Proofs.Regex.Building
import MaximalMunch.Proofs.Regex.Compile
import MaximalMunch.Proofs.Regex.Completeness
import MaximalMunch.Proofs.Regex.Culprits
import MaximalMunch.Proofs.Regex.Descent
import MaximalMunch.Proofs.Regex.Faults
import MaximalMunch.Proofs.Regex.Grammar
import MaximalMunch.Proofs.Regex.Language
import MaximalMunch.Proofs.Regex.Matchable
import MaximalMunch.Proofs.Regex.Meaning
import MaximalMunch.Proofs.Regex.References
import MaximalMunch.Proofs.Regex.Shape
import MaximalMunch.Proofs.Regex.Soundness
import MaximalMunch.Proofs.Regex.Splicing
import MaximalMunch.Proofs.Regex.Substitution
import MaximalMunch.Proofs.Regex.Tracking
import MaximalMunch.Proofs.Regex.WellFormed
import MaximalMunch.Proofs.Scan.Excerpt
import MaximalMunch.Proofs.Scan.Longest
import MaximalMunch.Proofs.Scan.Runs
import MaximalMunch.Proofs.Scan.Skipping
import MaximalMunch.Proofs.Scan.Splitting
import MaximalMunch.Proofs.Scan.Tiling
import MaximalMunch.Proofs.Tables.BinaryFile
import MaximalMunch.Proofs.Tables.Coarseness
import MaximalMunch.Proofs.Tables.JsonFile
import MaximalMunch.Proofs.Tables.Lookup
import MaximalMunch.Proofs.Tables.Packing
import MaximalMunch.Proofs.Tables.Refinement
import MaximalMunch.Proofs.Tables.Safety
import MaximalMunch.Proofs.Tables.Validity
import MaximalMunch.Proofs.Text.Blank
import MaximalMunch.Proofs.Text.Hexadecimal
import MaximalMunch.Proofs.Text.Lines
import MaximalMunch.Proofs.Text.Offsets
import MaximalMunch.Regex.Basic
import MaximalMunch.Regex.Reader
import MaximalMunch.Regex.SyntaxError
import MaximalMunch.Scan.Automaton
import MaximalMunch.Scan.Excerpt
import MaximalMunch.Scan.Position
import MaximalMunch.Scan.Scanner
import MaximalMunch.Tables.Basic
import MaximalMunch.Tables.BinaryFile
import MaximalMunch.Tables.JsonFile
import MaximalMunch.Tables.LoadError
import MaximalMunch.Tables.Packing
import MaximalMunch.Tables.Validity
import MaximalMunch.Text.Blank
import MaximalMunch.Text.Hexadecimal
import MaximalMunch.Text.Lines
import MaximalMunch.Text.Offsets
import MaximalMunch.Text.Quoted
import MaximalMunch.Text.Unprintable
import MaximalMunch.Text.Utf8
import MaximalMunch.Text.Word
