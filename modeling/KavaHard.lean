import KavaHard.Sdk.Dec
import KavaHard.Sdk.Coins
import KavaHard.Sdk.ValidCoins
import KavaHard.Types.Params
import KavaHard.Types.Position
import KavaHard.Keeper.State
import KavaHard.Keeper.Interest
import KavaHard.Keeper.Deposit
import KavaHard.Keeper.Run
import KavaHard.Proofs.Conservation
import KavaHard.Proofs.Sync
import KavaHard.Proofs.Rounding
import KavaHard.Proofs.Records
import KavaHard.Proofs.Frame
import KavaHard.Proofs.Compounding
import KavaHard.Proofs.LtvIndex
import KavaHard.Proofs.Snapshot
import KavaHard.MapModel.Ledger
import KavaHard.MapModel.Refinement
import KavaHard.Proofs.Idempotence
import KavaHard.Proofs.Settlement
import KavaHard.Proofs.RoundTrip
import KavaHard.Proofs.Backing
import KavaHard.Proofs.Admission
import KavaHard.Proofs.Outcomes
