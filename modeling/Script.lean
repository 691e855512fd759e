import Script.Main
import Script.Proofs.Parser.Acceptance
import Script.Proofs.Reachability.Locality
import Script.Proofs.Recovery.Isolation
import Script.Proofs.Scanning.Cut
import Script.Proofs.Session
import Script.Proofs.Scanning.Spelling
import Script.Proofs.Discipline.Basic
import Script.Proofs.Discipline.Operations
import Script.Proofs.Discipline.Evaluation
import Script.Proofs.Discipline.Moments
import Script.Proofs.Discipline.Time
import Script.Proofs.Moments.Operands
import Script.Proofs.Scopes.Tree
import Script.Proofs.Alike.Parser
import Script.Proofs.Alike.Statement
import Script.Proofs.Receiver.Names
import Script.Proofs.Receiver.History
import Script.Proofs.Receiver.Layers
import Script.Proofs.Receiver.This
import Script.Proofs.Identity.Numbers
import Script.Proofs.Identity.Registry
import Script.Proofs.Identity.Fresh
import Script.Proofs.Moments.Raising
import Script.Proofs.Errors.Located
import Script.Proofs.Discipline.Resumption
import Script.Proofs.Joining.Run
import Script.Proofs.Alike.Views
import Script.Proofs.Alike.Operations
import Script.Proofs.Alike.Evaluation
import Script.Proofs.Alike.Tokens
import Script.Proofs.Properties.Log
import Script.Proofs.Properties.Course
import Script.Proofs.Properties.Evaluation
import Script.Proofs.Properties.Host
import Script.Proofs.Properties.Lookup
import Script.Proofs.Levels
import Script.Proofs.Desugaring.Complete
import Script.Proofs.Desugaring.Views
import Script.Proofs.Desugaring.Since
import Script.Proofs.Desugaring.Direct
import Script.Proofs.Desugaring.Hollow
import Script.Proofs.Desugaring.ForLoop
import Script.Proofs.Alike.Lines
import Script.Proofs.Termination.Halting
import Script.Proofs.Scopes.Captured
import Script.Proofs.Scopes.Depth
import Script.Proofs.Scanning.Writing
import Script.Proofs.Parser.Longest
import Script.Proofs.Parser.Progress
import Script.Proofs.Scopes.Names
import Script.Proofs.Calls.Activations
import Script.Proofs.Calls.Limit
import Script.Proofs.Scopes.Handles
import Script.Proofs.Renaming.Run
import Script.Proofs.Parser.EndOfList
import Script.Proofs.Parser.Overlong
import Script.Proofs.Recovery.Places
import Script.Proofs.Joining.Print
import Script.Proofs.Formed.Parser
import Script.Proofs.Printed.Text
