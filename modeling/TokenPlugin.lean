import TokenPlugin.Lib.Text
import TokenPlugin.Lib.Staged
import TokenPlugin.Lib.StagedLedger
import TokenPlugin.Lib.Utxo
import TokenPlugin.Lib.Program
import TokenPlugin.Lib.LastWrite
import TokenPlugin.Lib.JsonText
import TokenPlugin.Lib.Paging
import TokenPlugin.Lib.Numerals
import TokenPlugin.Lib.Base58
import TokenPlugin.Python
import TokenPlugin.Token.Types
import TokenPlugin.Platform
import TokenPlugin.Token.UtxoCache
import TokenPlugin.Token.TokenUtils
import TokenPlugin.Database
import TokenPlugin.Token.Handlers
import TokenPlugin.Fees.FeesAuthorizer
import TokenPlugin.Fees.DomainFeeHandler
import TokenPlugin.Fees.BatchHandlers
import TokenPlugin.Fees.AuthRuleFeeHandler
import TokenPlugin.Fees.ThreePhaseCommitHandler
import TokenPlugin.Node
import TokenPlugin.Messages.Fields
import TokenPlugin.Messages.FieldErrors
import TokenPlugin.Token.ClientAuthnr
import TokenPlugin.Token.Addresses
import TokenPlugin.Token.GetUtxoHandler
import TokenPlugin.Steps
import TokenPlugin.Token.Views
import TokenPlugin.Token.Amounts
import TokenPlugin.Token.Coins
import TokenPlugin.Token.Updates
import TokenPlugin.Token.FailedUpdates
import TokenPlugin.Token.Sums
import TokenPlugin.Token.History
import TokenPlugin.Token.Supply
import TokenPlugin.Token.Listing
import TokenPlugin.Token.Replies
import TokenPlugin.Token.Shown
import TokenPlugin.Fees.Acceptance
import TokenPlugin.Fees.ConfigState
import TokenPlugin.Fees.ConfigHistory
import TokenPlugin.Fees.ConfigRuns
import TokenPlugin.Effects
import TokenPlugin.Invariant
import TokenPlugin.Applying
import TokenPlugin.Closing
import TokenPlugin.Rejecting
import TokenPlugin.Committing
import TokenPlugin.Runs
import TokenPlugin.Supply
import TokenPlugin.Replay
import TokenPlugin.Reference
import TokenPlugin.Properties.DoubleSpend
import TokenPlugin.Properties.Conservation
import TokenPlugin.Properties.Agreement
import TokenPlugin.Properties.Settlement
import TokenPlugin.Properties.Restoration
import TokenPlugin.Properties.Recovery
import TokenPlugin.Properties.CatchUp
import TokenPlugin.Properties.CarriedOut
import TokenPlugin.Properties.CollectedFees
import TokenPlugin.Properties.FeeChange
import TokenPlugin.Properties.Authorisation
import TokenPlugin.Properties.ReadBack
import TokenPlugin.Properties.CommittedReads
import TokenPlugin.Properties.Pages
import TokenPlugin.Properties.Tombstones
import TokenPlugin.Properties.Isolation
import TokenPlugin.Properties.ReportedFees
import TokenPlugin.Properties.FormerSetFees
import TokenPlugin.Properties.RuleAliases
import TokenPlugin.Properties.SignedContent
import TokenPlugin.Properties.Authentication
import TokenPlugin.Properties.KeptSignatures
import TokenPlugin.Properties.PaymentKeys
import TokenPlugin.Properties.UnspentTable
import TokenPlugin.Properties.Atomicity
import TokenPlugin.Properties.FeeSections
import TokenPlugin.Properties.TransferGrammar
import TokenPlugin.Lifecycle
import TokenPlugin.Refinement
import TokenPlugin.Replicas
import TokenPlugin.Properties.LedgerRefinement
import TokenPlugin.Properties.Rejoining
import TokenPlugin.Properties.Finality
import TokenPlugin.Properties.ViewChange
import TokenPlugin.Properties.ReplicaAgreement
import TokenPlugin.Properties.Draining
import TokenPlugin.Properties.FeeReferences
import TokenPlugin.Messages.ClientMessages
import TokenPlugin.Properties.OwnerSigned
