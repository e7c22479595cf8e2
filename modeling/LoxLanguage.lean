import LoxLanguage.Main
import LoxLanguage.Store.Dump
import LoxLanguage.Tree.Coverage
import LoxLanguage.Tree.Uses
import LoxLanguage.Proofs.Parser.Recovery
import LoxLanguage.Proofs.Scanner.Tiling
import LoxLanguage.Proofs.Grammar.Exact
import LoxLanguage.Proofs.Session.Safety
import LoxLanguage.Proofs.Session.Scoping
import LoxLanguage.Proofs.Session.Rejection
import LoxLanguage.Proofs.Session.Append
import LoxLanguage.Proofs.Session.Discipline
import LoxLanguage.Proofs.Machine.Passes
import LoxLanguage.Proofs.Session.CallLimit
import LoxLanguage.Proofs.CommandLine.Status
import LoxLanguage.Proofs.Parser.Trees
import LoxLanguage.Proofs.Scope.Rules
import LoxLanguage.Proofs.Scope.Table
import LoxLanguage.Proofs.Session.Continuation
import LoxLanguage.Proofs.Session.Quotations
import LoxLanguage.Proofs.Session.Restoration
import LoxLanguage.Proofs.Session.Returns
import LoxLanguage.Proofs.Parser.Ahead
import LoxLanguage.Proofs.Parser.Confined
import LoxLanguage.Proofs.Lexical.Parallel
import LoxLanguage.Proofs.Parser.Locality
import LoxLanguage.Proofs.Scope.Changes
import LoxLanguage.Proofs.Lexical.Changed
import LoxLanguage.Proofs.Session.Trees
import LoxLanguage.Proofs.Scope.Wrapping
import LoxLanguage.Proofs.Session.Wrapping
import LoxLanguage.Proofs.Scope.Renaming
import LoxLanguage.Proofs.Lexical.Renaming
import LoxLanguage.Proofs.Session.Renaming
import LoxLanguage.Proofs.Lexical.Receivers
import LoxLanguage.Proofs.Session.Receivers
import LoxLanguage.Proofs.Scanner.Lines
import LoxLanguage.Proofs.Scanner.Writing
import LoxLanguage.Proofs.Session.Completeness
import LoxLanguage.Proofs.Tree.Renumbering
import LoxLanguage.Proofs.Machine.Relabel
import LoxLanguage.Proofs.Grammar.Loops
import LoxLanguage.Proofs.Session.Loops
import LoxLanguage.Machine.Access
import LoxLanguage.Proofs.Store.Sharing
import LoxLanguage.Proofs.Number.Display
import LoxLanguage.Proofs.Store.Equality
import LoxLanguage.Proofs.Grammar.Limits
import LoxLanguage.Proofs.Scanner.Contents
import LoxLanguage.Proofs.Tree.Forms
import LoxLanguage.Proofs.Tree.PrefixForm
import LoxLanguage.Proofs.Tree.WellFormed
import LoxLanguage.Proofs.Session.Tables
import LoxLanguage.Proofs.Report.PlainText
import LoxLanguage.Proofs.Report.Colour
import LoxLanguage.Proofs.Scanner.Endings
import LoxLanguage.Proofs.Grammar.Unended
import LoxLanguage.Proofs.Session.ShownTrees
import LoxLanguage.Proofs.Scope.Balance
import LoxLanguage.Proofs.Parser.Boundaries
import LoxLanguage.Proofs.Scanner.Pieces
