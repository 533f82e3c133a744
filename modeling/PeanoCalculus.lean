import PeanoCalculus.Text.Blank
import PeanoCalculus.Expr.Basic
import PeanoCalculus.Expr.Printer
import PeanoCalculus.Expr.Variables
import PeanoCalculus.Expr.Substitution
import PeanoCalculus.Grammar.Fault
import PeanoCalculus.Grammar.Reader
import PeanoCalculus.Grammar.Term
import PeanoCalculus.Grammar.Formula
import PeanoCalculus.Matching
import PeanoCalculus.Schemas
import PeanoCalculus.Derivation.Justification
import PeanoCalculus.Derivation.Basic
import PeanoCalculus.Derivation.Rules
import PeanoCalculus.Document
import PeanoCalculus.Error
import PeanoCalculus.Template.Basic
import PeanoCalculus.Template.Builtin
import PeanoCalculus.Elaboration
import PeanoCalculus.Document.Statement
import PeanoCalculus.Report.Message
import PeanoCalculus.Report.Check
import PeanoCalculus.Report.Discharge
import PeanoCalculus.Json.Basic
import PeanoCalculus.Json.Text
import PeanoCalculus.Json.Number
import PeanoCalculus.Json.Printer
import PeanoCalculus.Json.Parser
import PeanoCalculus.Json.Fields
import PeanoCalculus.Report.Record
import PeanoCalculus.Run
import PeanoCalculus.FileTree
import PeanoCalculus.Command.Arguments
import PeanoCalculus.Command.Execution
import PeanoCalculus.Main
import PeanoCalculus.Proofs.Expr.WellFormed
import PeanoCalculus.Proofs.Grammar.Phrase
import PeanoCalculus.Proofs.Except
import PeanoCalculus.Proofs.Grammar.Reader
import PeanoCalculus.Proofs.Grammar.Soundness
import PeanoCalculus.Proofs.Grammar.Completeness
import PeanoCalculus.Proofs.Grammar.RoundTrip
import PeanoCalculus.Proofs.Expr.Substitution
import PeanoCalculus.Proofs.Expr.Variables
import PeanoCalculus.Proofs.Expr.FreeVariables
import PeanoCalculus.Proofs.Matching.Demands
import PeanoCalculus.Proofs.Matching.Substitution
import PeanoCalculus.Proofs.Matching.Schema
import PeanoCalculus.Proofs.Matching.Steps
import PeanoCalculus.Proofs.Expr.Representation
import PeanoCalculus.Proofs.Calculus.Axioms
import PeanoCalculus.Proofs.Calculus.Provable
import PeanoCalculus.Proofs.Calculus.Truth
import PeanoCalculus.Proofs.Derivation.Tables
import PeanoCalculus.Proofs.Derivation.Justification
import PeanoCalculus.Proofs.Derivation.Run
import PeanoCalculus.Proofs.Report.Check
import PeanoCalculus.Proofs.Document.NormalForm
import PeanoCalculus.Proofs.Document.Printed
import PeanoCalculus.Proofs.Report.Adequacy
import PeanoCalculus.Proofs.Elaboration.DeductionTheorem
import PeanoCalculus.Proofs.Elaboration.FirstFailure
import PeanoCalculus.Proofs.Elaboration.Agreement
import PeanoCalculus.Proofs.Elaboration.Repetition
import PeanoCalculus.Proofs.Derivation.Certificate
import PeanoCalculus.Proofs.Grammar.ParseTree
import PeanoCalculus.Proofs.Grammar.Unambiguity
import PeanoCalculus.Proofs.Grammar.Depth
import PeanoCalculus.Proofs.Grammar.Damage
import PeanoCalculus.Proofs.Expr.Renaming
import PeanoCalculus.Proofs.Calculus.Renaming
import PeanoCalculus.Proofs.Derivation.Relabelling
import PeanoCalculus.Proofs.Report.Thinning
import PeanoCalculus.Proofs.Report.FailedLines
import PeanoCalculus.Proofs.Report.Weakening
import PeanoCalculus.Proofs.Elaboration.Renaming
import PeanoCalculus.Proofs.Elaboration.Written
import PeanoCalculus.Proofs.Derivation.LogScan
import PeanoCalculus.Proofs.Json.RoundTrip
import PeanoCalculus.Proofs.Report.Record
