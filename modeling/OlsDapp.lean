import OlsDapp.Token.MyToken
import OlsDapp.Lib.Ledger
import OlsDapp.Token.Effect
import OlsDapp.Token.Supply
import OlsDapp.Token.Authority
import OlsDapp.Token.Allowance
import OlsDapp.Client.Send
import OlsDapp.Handler.Entities
import OlsDapp.Handler.Web3Handler
import OlsDapp.Handler.System
import OlsDapp.Handler.Change
import OlsDapp.Handler.Invariant
import OlsDapp.Handler.AtMostOnce
import OlsDapp.Handler.EveryDeposit
import OlsDapp.Handler.LostUpdate
import OlsDapp.Handler.Coverage
import OlsDapp.Handler.Settled
import OlsDapp.Handler.Crash
import OlsDapp.Handler.Withdrawal
import OlsDapp.Token.Success
import OlsDapp.Token.Commute
import OlsDapp.Token.EventLog
import OlsDapp.Handler.Rescan
import OlsDapp.Handler.Routing
import OlsDapp.Handler.ExactCredit
import OlsDapp.Handler.Reconcile
import OlsDapp.Client.Guards
import OlsDapp.Handler.TransactionService
import OlsDapp.Client.Packing
import OlsDapp.Client.Settlement
import OlsDapp.Lib.Base64
import OlsDapp.Helpers.Base64
import OlsDapp.Middlewares.RequestValidation
import OlsDapp.Handler.RealBlock
import OlsDapp.Handler.Provenance
import OlsDapp.Handler.Lifecycle
import OlsDapp.Handler.Polling
import OlsDapp.Lib.Tally
import OlsDapp.Handler.Backing
import OlsDapp.Handler.Solvency
import OlsDapp.Handler.Delivery
import OlsDapp.Client.Payment
import OlsDapp.Handler.Connection
import OlsDapp.Handler.Attribution
import OlsDapp.Handler.Recorders
import OlsDapp.Controllers.WalletController
import OlsDapp.Controllers.Wallets
import OlsDapp.Handler.Rest
import OlsDapp.Handler.Completion
import OlsDapp.Handler.Drawn
import OlsDapp.Handler.Cursor
import OlsDapp.Handler.Calldata
