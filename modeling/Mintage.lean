import Mintage.Devnet
import Mintage.Base58.Lemmas
import Mintage.Decimal.Lemmas
import Mintage.Scale.Lemmas
import Mintage.Scale.Composite
import Mintage.Weight
import Mintage.Proofs.LedgerStep
import Mintage.Proofs.MintStep
import Mintage.Proofs.AddressText
import Mintage.Proofs.AddressLanguage
import Mintage.Proofs.AddressLength
import Mintage.Proofs.Atomicity
import Mintage.Proofs.BookSum
import Mintage.Proofs.BookMint
import Mintage.Proofs.CurrencySum
import Mintage.Proofs.LedgerRuns
import Mintage.Proofs.CurrencyMint
import Mintage.Proofs.Delivery
import Mintage.Proofs.Audit
import Mintage.Proofs.History
import Mintage.Proofs.NamedAuthority
import Mintage.Proofs.EventLog
import Mintage.Proofs.Commutation
import Mintage.Proofs.NestingLimit
import Mintage.Proofs.CoinLists
import Mintage.Proofs.HoldingAccount
import Mintage.Proofs.CanonicalText
import Mintage.Proofs.Conservation
import Mintage.Proofs.NativeMint
import Mintage.Proofs.Authorization
import Mintage.Proofs.NativeConservation
import Mintage.Proofs.Blindness
import Mintage.Proofs.Pruning
import Mintage.Proofs.ErrorCauses
import Mintage.Proofs.RecordBytes
import Mintage.Proofs.CallBytes
import Mintage.Proofs.CallRefinement
import Mintage.Proofs.AddressBound
import Mintage.Proofs.BookCoins
import Mintage.Proofs.CurrencyCoins
import Mintage.Proofs.Attributes
import Mintage.Proofs.WeightCap
import Mintage.Proofs.OutcomeJournal
