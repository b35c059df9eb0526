import Abacus.CommandLine
import Abacus.Main
import Abacus.Proofs.Emission
import Abacus.Proofs.Signatures
import Abacus.Proofs.Finalizing
import Abacus.Proofs.OneDefinition
import Abacus.Proofs.Names
import Abacus.Proofs.Tables
import Abacus.Proofs.Handling
import Abacus.Proofs.OneTable
import Abacus.Proofs.Depth
import Abacus.Proofs.Ledger
import Abacus.Proofs.Recording
import Abacus.Proofs.Reference
import Abacus.Proofs.Chains
import Abacus.Proofs.Grammar
import Abacus.Proofs.Climbing
import Abacus.Proofs.LineBreaks
import Abacus.Proofs.Layout
import Abacus.Proofs.Items
import Abacus.Proofs.Programs
import Abacus.Proofs.Language
import Abacus.Proofs.Completion
import Abacus.Proofs.Extents
import Abacus.Proofs.Faults
import Abacus.Proofs.Statements
import Abacus.Proofs.Calls
import Abacus.Proofs.Immutability
import Abacus.Proofs.Scopes
import Abacus.Proofs.Vetting
import Abacus.Proofs.Safety
import Abacus.Proofs.Dangling
import Abacus.Proofs.AddedCode
import Abacus.Proofs.Unresolved
import Abacus.Proofs.Pending
import Abacus.Proofs.Answers
import Abacus.Proofs.Residue
import Abacus.Proofs.Dictionary
import Abacus.Proofs.Boundaries
import Abacus.Proofs.Composition
import Abacus.Proofs.Lockstep
import Abacus.Proofs.UnitTables
import Abacus.Proofs.Manager
import Abacus.Proofs.Refinement
import Abacus.Proofs.Drafts
import Abacus.Proofs.Backends
import Abacus.Proofs.ParallelTables
import Abacus.Proofs.Redefinition
import Abacus.Proofs.Accounts
import Abacus.Proofs.Turns
import Abacus.Proofs.Separators
import Abacus.Proofs.Gathering
import Abacus.Proofs.Resolving
import Abacus.Proofs.Passes
import Abacus.Proofs.SingleAssignment
import Abacus.Proofs.Spelling
import Abacus.Proofs.Rounding
import Abacus.Proofs.ShortestDigits
import Abacus.Proofs.ReadBack
import Abacus.Proofs.RoundTrip
import Abacus.Proofs.NumberTexts
import Abacus.Proofs.JsonTexts
import Abacus.Proofs.ItemLines
import Abacus.Proofs.Addresses
import Abacus.Proofs.CallGraph
import Abacus.Proofs.Cursor
import Abacus.Proofs.Lexing
import Abacus.Proofs.Fronts
import Abacus.Proofs.Termination
