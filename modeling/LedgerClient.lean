import LedgerClient.Checkpoint.File
import LedgerClient.Client.Moves
import LedgerClient.Ledger.BlockJson
import LedgerClient.Rehearsal.Scenario
import LedgerClient.Proofs.CommitListeners
import LedgerClient.Proofs.Reconnects
import LedgerClient.Proofs.Removal
import LedgerClient.Proofs.Blocks
import LedgerClient.Proofs.Repetition
import LedgerClient.Proofs.Resumption
import LedgerClient.Proofs.Cleanup
import LedgerClient.Proofs.Registrations
import LedgerClient.Proofs.Closing
import LedgerClient.Proofs.Cancellation
import LedgerClient.Proofs.CheckpointFiles
import LedgerClient.Proofs.SharedFeeds
import LedgerClient.Proofs.RecordedIds
import LedgerClient.Proofs.LastCalls
import LedgerClient.Proofs.OpenFates
import LedgerClient.Proofs.Bystanders
import LedgerClient.Proofs.ToldAgain
import LedgerClient.Proofs.BlockTexts
import LedgerClient.Proofs.Filtering
import LedgerClient.Proofs.FanOut
import LedgerClient.Proofs.StartPositions
import LedgerClient.Proofs.FullReports
import LedgerClient.Proofs.Deadlines
import LedgerClient.Proofs.Answers
import LedgerClient.Proofs.Endorsers
import LedgerClient.Proofs.Orderers
import LedgerClient.Proofs.Choosers
import LedgerClient.Proofs.Membership
import LedgerClient.Proofs.OptionTexts
import LedgerClient.Proofs.ForwardOnly
import LedgerClient.Proofs.FailedRegistrations
