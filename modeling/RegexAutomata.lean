import RegexAutomata.Compile
import RegexAutomata.Enfa.Accept
import RegexAutomata.Enfa.Path
import RegexAutomata.File.Reading
import RegexAutomata.Regex.Expr
import RegexAutomata.Proofs.Dfa.Minimization
import RegexAutomata.Proofs.Enfa.Built
import RegexAutomata.Proofs.Enfa.Acceptance
import RegexAutomata.Proofs.Enfa.Powerset
import RegexAutomata.Proofs.Enfa.Arcs
import RegexAutomata.Proofs.Enfa.Layout
import RegexAutomata.Proofs.Enfa.Thompson
import RegexAutomata.Proofs.Regex.Denotation
import RegexAutomata.Proofs.Regex.ClassBody
import RegexAutomata.Proofs.Regex.Grammar
import RegexAutomata.Proofs.Regex.Infix
import RegexAutomata.Proofs.Regex.Tokens
import RegexAutomata.Proofs.Regex.Pieces
import RegexAutomata.Proofs.Regex.Parsing
import RegexAutomata.Proofs.Regex.Language
import RegexAutomata.Proofs.Regex.Balance
import RegexAutomata.Proofs.Regex.Conversion
import RegexAutomata.Proofs.Compiled
import RegexAutomata.Proofs.Dfa.Complete
import RegexAutomata.Proofs.File.Records
import RegexAutomata.Proofs.Produced
import RegexAutomata.Proofs.Dfa.Indistinguishability
import RegexAutomata.Proofs.Dfa.Distinction
import RegexAutomata.Proofs.Dfa.Minimality
import RegexAutomata.Proofs.Enfa.Trim
import RegexAutomata.Proofs.Enfa.Discovery
import RegexAutomata.Proofs.Minimum
import RegexAutomata.Proofs.Dfa.Idempotence
import RegexAutomata.Proofs.Json.Quoted
import RegexAutomata.Proofs.Json.Reader
import RegexAutomata.Proofs.File.NameMap
import RegexAutomata.Proofs.File.Text
import RegexAutomata.Proofs.File.Labels
import RegexAutomata.Proofs.File.NormalForm
import RegexAutomata.Proofs.File.Renaming
import RegexAutomata.Proofs.Emptiness
import RegexAutomata.Proofs.Enfa.Appearance
import RegexAutomata.Proofs.Names
import RegexAutomata.Proofs.Dfa.Bounds
import RegexAutomata.Proofs.File.Rows
import RegexAutomata.Proofs.File.RoundTrip
import RegexAutomata.Proofs.Dfa.Renumbering
import RegexAutomata.Proofs.File.Reloading
import RegexAutomata.Proofs.Enfa.Shape
import RegexAutomata.Proofs.File.Faults
import RegexAutomata.Proofs.Regex.Misplaced
import RegexAutomata.Proofs.Regex.Items
import RegexAutomata.Proofs.Regex.EmptyGroups
import RegexAutomata.Proofs.Regex.Rejection
import RegexAutomata.Proofs.Enfa.ArcPaths
import RegexAutomata.Proofs.File.NamedGraph
import RegexAutomata.Proofs.Enfa.Closures
import RegexAutomata.Proofs.Enfa.Permutation
import RegexAutomata.Proofs.Origins
import RegexAutomata.Proofs.Regex.Printing
import RegexAutomata.Proofs.Dfa.DeadState
import RegexAutomata.Proofs.Enfa.History
import RegexAutomata.Dfa.Scan
import RegexAutomata.Proofs.Dfa.Chain
import RegexAutomata.Log
import RegexAutomata.Proofs.Log
import RegexAutomata.Proofs.StateBits.History
import RegexAutomata.Enfa.Worklist
import RegexAutomata.Dfa.Emitting
import RegexAutomata.File.Connecting
import RegexAutomata.Enfa.Queue
import RegexAutomata.Proofs.Dfa.Draft
import RegexAutomata.Proofs.Dfa.Emitting
import RegexAutomata.Proofs.File.Connecting
import RegexAutomata.Proofs.Enfa.Worklist
import RegexAutomata.Proofs.Enfa.Queue
import RegexAutomata.Proofs.Stepwise
import RegexAutomata.Proofs.Messages
