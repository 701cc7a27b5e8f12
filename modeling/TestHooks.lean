import TestHooks.Expansion.Roster
import TestHooks.Declaration.Document
import TestHooks.Settings.KeyValue
import TestHooks.Settings.Document
import TestHooks.Workspace
import TestHooks.Console.Log
import TestHooks.CommandLine
import TestHooks.Main
import TestHooks.Proofs.Attributes
import TestHooks.Proofs.Annotated
import TestHooks.Proofs.Removal
import TestHooks.Proofs.Layout
import TestHooks.Proofs.Composing
import TestHooks.Proofs.Forwarding
import TestHooks.Proofs.Parameters
import TestHooks.Proofs.Reports
import TestHooks.Proofs.Strictness
import TestHooks.Proofs.Isolation
import TestHooks.Proofs.Roundtrip
import TestHooks.Proofs.Idempotence
import TestHooks.Proofs.Documents
import TestHooks.Proofs.Reformatting
import TestHooks.Proofs.Braces
import TestHooks.Proofs.PrintedDeclarations
import TestHooks.Proofs.Tiling
import TestHooks.Proofs.Relexing
import TestHooks.Proofs.Literals
import TestHooks.Proofs.Locations
import TestHooks.Proofs.Comments
import TestHooks.Proofs.AccessorBlocks
import TestHooks.Proofs.SingleMember
import TestHooks.Proofs.CalledTypes
import TestHooks.Proofs.Lines
import TestHooks.Proofs.StringLiterals
import TestHooks.Proofs.LoweredFunctions
import TestHooks.Proofs.Agreement
import TestHooks.Proofs.Shadowing
import TestHooks.Proofs.InoutParameters
import TestHooks.Proofs.TrailingTypes
import TestHooks.Proofs.MatchingModes
import TestHooks.Proofs.CallLabels
import TestHooks.Proofs.Indentation
import TestHooks.Proofs.Guessing
import TestHooks.Proofs.Inspecting
import TestHooks.Proofs.Delivery
import TestHooks.Proofs.Progress
