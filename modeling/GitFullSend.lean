import GitFullSend.Cli.ReapAge
import GitFullSend.Client.EncodeConflict
import GitFullSend.Client.EncodeOrder
import GitFullSend.Client.SelectLayers
import GitFullSend.Client.StreamRace
import GitFullSend.Client.SyncConcurrent
import GitFullSend.Common.Coexist
import GitFullSend.Common.SinkRace
import GitFullSend.Server.AcceptBounded
import GitFullSend.Server.AuthClock
import GitFullSend.Server.ChangedPaths
import GitFullSend.Server.Forget
import GitFullSend.Server.Listener
import GitFullSend.Server.LockWait
import GitFullSend.Server.Overlay
import GitFullSend.Server.ReapDryRun
import GitFullSend.Server.ReapRace
import GitFullSend.Server.TraceReport
import GitFullSend.Server.WorktreeExclusive
import GitFullSend.Server.WorktreeIndex
import GitFullSend.Transfer.Estimate
import GitFullSend.Transfer.ExchangeRests
import GitFullSend.Transfer.Layers
import GitFullSend.Transfer.Secrets
import GitFullSend.Transfer.Curated
