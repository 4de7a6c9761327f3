import DarknetCoin.Theorems.Difficulty
import DarknetCoin.Theorems.DepositTerms
import DarknetCoin.Theorems.MoneySupply
import DarknetCoin.Theorems.UpgradeVoting
import DarknetCoin.Theorems.UnspentDeposits
import DarknetCoin.Theorems.Reset
import DarknetCoin.Theorems.SparseChain
import DarknetCoin.Theorems.BlockTemplates
import DarknetCoin.Theorems.Finality
import DarknetCoin.Theorems.TransferDeletion
import DarknetCoin.Theorems.BlockStore
import DarknetCoin.Theorems.BlockQueries
import DarknetCoin.Theorems.ChainState
import DarknetCoin.Theorems.OutputScanning
import DarknetCoin.Theorems.ChainFollowing
import DarknetCoin.Theorems.DelayedTransactions
import DarknetCoin.Theorems.FailedPayments
import DarknetCoin.Theorems.CoinSelection
import DarknetCoin.Theorems.CachedBalances
import DarknetCoin.Theorems.Retarget
import DarknetCoin.Theorems.Handshake
import DarknetCoin.Theorems.RecordedFees
import DarknetCoin.Theorems.PeerList
