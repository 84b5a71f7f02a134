import PredictiveParsing.Main
import PredictiveParsing.Proofs.Grammar.Derivation
import PredictiveParsing.Proofs.Grammar.Valid
import PredictiveParsing.Proofs.Grammar.Height
import PredictiveParsing.Proofs.Grammar.Builder
import PredictiveParsing.Proofs.Lookahead.Family
import PredictiveParsing.Proofs.Lookahead.First
import PredictiveParsing.Proofs.Lookahead.Follow
import PredictiveParsing.Proofs.Lookahead.Sequence
import PredictiveParsing.Proofs.Lookahead.Growth
import PredictiveParsing.Proofs.Tree.Tours
import PredictiveParsing.Proofs.Parse.Halting
import PredictiveParsing.Proofs.Table.Claimants
import PredictiveParsing.Proofs.Parse.Recognition
import PredictiveParsing.Proofs.Parse.Ambiguity
import PredictiveParsing.Proofs.Cminus.Bodies
import PredictiveParsing.Proofs.Cminus.Definitions
import PredictiveParsing.Proofs.Cminus.Legality
import PredictiveParsing.Proofs.Parse.Agreement
import PredictiveParsing.Proofs.Parse.Schedule
import PredictiveParsing.Proofs.Parse.Erasure
import PredictiveParsing.Proofs.Parse.Patience
import PredictiveParsing.Proofs.Cminus.Safety
import PredictiveParsing.Proofs.Cminus.Histories
import PredictiveParsing.Proofs.Cminus.Listing
import PredictiveParsing.Proofs.Cminus.Storage
import PredictiveParsing.Proofs.Cminus.Arguments
import PredictiveParsing.Proofs.Table.Sameness
import PredictiveParsing.Proofs.Table.Conflicts
import PredictiveParsing.Proofs.Table.Warnings
import PredictiveParsing.Proofs.Cminus.Decisions
import PredictiveParsing.Proofs.Table.RowMajor
