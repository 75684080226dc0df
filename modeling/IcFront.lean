import IcFront.CommandLine.Files
import IcFront.Main
import IcFront.Proofs.Compilation
import IcFront.Proofs.Grammar.Layout
import IcFront.Proofs.Grammar.Misfits
import IcFront.Proofs.Grammar.ReadProgram
import IcFront.Proofs.Grammar.Soundness
import IcFront.Proofs.Grammar.StringLiterals
import IcFront.Proofs.Grammar.Violations
import IcFront.Proofs.Json.Dump
import IcFront.Proofs.Scopes.Records
import IcFront.Proofs.Sessions.Failures
import IcFront.Proofs.Tables.InFront
import IcFront.Proofs.Tables.Inheritance
import IcFront.Proofs.Tables.LibraryFirst
import IcFront.Proofs.Tables.Misplaced
import IcFront.Proofs.Tables.Numbering
import IcFront.Proofs.Tables.Reordering
import IcFront.Proofs.Tables.Resolution
import IcFront.Proofs.Tables.ScopeTree
import IcFront.Proofs.Tables.ScopesListed
import IcFront.Proofs.Tables.TypeIdentity
import IcFront.Proofs.Tables.TypesListed
import IcFront.Proofs.Tables.VoidArrays
import IcFront.Proofs.Types.Distinct
import IcFront.Proofs.Types.Interning
import IcFront.Syntax.ExprFromDocument
