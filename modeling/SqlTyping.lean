import SqlTyping.Call.Detached
import SqlTyping.Json.Stored
import SqlTyping.Proofs.Scope.Agreement
import SqlTyping.Proofs.Scope.Frames
import SqlTyping.Proofs.Session.Acceptance
import SqlTyping.Proofs.Session.Anchors
import SqlTyping.Proofs.Session.Answers
import SqlTyping.Proofs.Session.Explicit
import SqlTyping.Proofs.Session.Naming
import SqlTyping.Proofs.Session.Omission
import SqlTyping.Proofs.Session.Resolution
import SqlTyping.Proofs.Session.Rewriting
import SqlTyping.Proofs.Signature.Choice
import SqlTyping.Proofs.Signature.Looking
import SqlTyping.Session.Typing
import SqlTyping.Signature.Describe
import SqlTyping.Proofs.Session.Guarding
import SqlTyping.Proofs.Session.Requests
import SqlTyping.Proofs.Session.Confinement
import SqlTyping.Proofs.Session.Outlooks
import SqlTyping.Proofs.Session.Coherence
import SqlTyping.Proofs.Session.Recursion
import SqlTyping.Proofs.Session.SelfReferences
import SqlTyping.Proofs.Mirroring
import SqlTyping.Proofs.Tree.Renumbering
import SqlTyping.Proofs.Scope.Renumbering
import SqlTyping.Proofs.Session.Mirroring
import SqlTyping.Proofs.Session.QueryMirroring
import SqlTyping.Proofs.Session.CallMirroring
import SqlTyping.Proofs.Session.ExpressionMirroring
import SqlTyping.Proofs.Scope.Ambiguity
import SqlTyping.Proofs.Scope.WithItems
import SqlTyping.Proofs.Session.WithItems
import SqlTyping.Proofs.Session.Independence
import SqlTyping.Proofs.Session.Finding
import SqlTyping.Proofs.Session.CatalogGrowth
import SqlTyping.Proofs.Session.Comparing
import SqlTyping.Proofs.Session.Following
import SqlTyping.Proofs.Session.Conservativity
import SqlTyping.Proofs.DataType.Loosening
import SqlTyping.Proofs.Session.Loosening
import SqlTyping.Proofs.Session.Inlining
import SqlTyping.Proofs.Session.Appending
import SqlTyping.Proofs.Session.CallCoupling
import SqlTyping.Proofs.Session.HiddenKeywords
import SqlTyping.Proofs.Session.Termination
import SqlTyping.Proofs.Session.Blame
import SqlTyping.Proofs.Session.ExpressionRecency
import SqlTyping.Proofs.Signature.Strictness
import SqlTyping.Proofs.Signature.Castable
import SqlTyping.Proofs.Signature.Ignoring
import SqlTyping.Proofs.Session.FromOrder
import SqlTyping.Proofs.Signature.Flattening
import SqlTyping.Proofs.Signature.Lasting
import SqlTyping.Proofs.Signature.Asking
import SqlTyping.Proofs.Session.Padding
import SqlTyping.Proofs.Session.Candour
import SqlTyping.Proofs.Scope.Folding
import SqlTyping.Proofs.Scope.Shadowing
import SqlTyping.Proofs.Session.ColumnNames
import SqlTyping.Proofs.Session.SetOperations
import SqlTyping.Proofs.Source.Places
import SqlTyping.Proofs.Operator.Registration
import SqlTyping.Proofs.Scope.Ancestry
import SqlTyping.Proofs.Scope.SelfViews
import SqlTyping.Proofs.Literal.Quoted
import SqlTyping.Proofs.Literal.Temporal
import SqlTyping.Proofs.Literal.Precision
