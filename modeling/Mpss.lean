import Mpss.Proofs.AlutReported
import Mpss.Proofs.BindReserves
import Mpss.Proofs.BlkIsolated
import Mpss.Proofs.BlockConfined
import Mpss.Proofs.BounceBuffer
import Mpss.Proofs.CacheAccounted
import Mpss.Proofs.CallbacksOnce
import Mpss.Proofs.CardOnline
import Mpss.Proofs.ClaimsDisjoint
import Mpss.Proofs.ClientsApart
import Mpss.Proofs.CommandLine
import Mpss.Proofs.ConfigRead
import Mpss.Proofs.ConnectAgreed
import Mpss.Proofs.DependencyAwake
import Mpss.Proofs.DescriptorsApart
import Mpss.Proofs.DmaRetired
import Mpss.Proofs.FatExact
import Mpss.Proofs.HandleConsumed
import Mpss.Proofs.LinkOrderly
import Mpss.Proofs.MiclistComplete
import Mpss.Proofs.OffsetsBooked
import Mpss.Proofs.OffsetsConserved
import Mpss.Proofs.OverlayWins
import Mpss.Proofs.RequestsAnswered
import Mpss.Proofs.RingsEqual
import Mpss.Proofs.RmaExact
import Mpss.Proofs.SmptMapped
import Mpss.Proofs.TempLookup
import Mpss.Proofs.Translation
import Mpss.Proofs.Unusable
import Mpss.Proofs.VnetAccounted
import Mpss.Proofs.VopCopies
import Mpss.Proofs.WindowReleased
import Mpss.Proofs.FenceSignals
import Mpss.Proofs.ConnectRetry
import Mpss.Proofs.SuspendRefused
import Mpss.Proofs.LossAnnounced
import Mpss.Proofs.PinsUndone
import Mpss.Proofs.VersionRejected
import Mpss.Proofs.UnregisterFull
import Mpss.Proofs.ProxyOwn
import Mpss.Proofs.UnregisteredOnce
import Mpss.Proofs.ClaimFreed
import Mpss.Proofs.ActivityCount
import Mpss.Proofs.UserRemoval
import Mpss.Proofs.UserMerge
import Mpss.Proofs.CredentialJobs
import Mpss.Proofs.MacsUnique
import Mpss.Proofs.RingsShared
import Mpss.Proofs.QueueWoken
import Mpss.Proofs.RefusalsHarmless
import Mpss.Proofs.SentWhole
import Mpss.Proofs.CountedDown
import Mpss.Proofs.MessagesWhole
import Mpss.Proofs.DescriptorsCover
