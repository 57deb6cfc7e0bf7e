import Celld.Admission.Runs
import Celld.Gate.Tickets
import Celld.Gate.Readers
import Celld.Gate.Custody
import Celld.Lease.Expiry
import Celld.Ownership.Interlock
import Celld.Ownership.World
import Celld.Ltx.Bundle
import Celld.Ltx.Vfs
import Celld.Replica.Collection
import Celld.Replica.Contents
import Celld.Replica.Cuts
import Celld.LogTier.Eviction
import Celld.LogTier.ShipLedger
import Celld.Shedding.Victims
import Celld.Export.Order
import Celld.Export.Certified
import Celld.Queue.Settlement
import Celld.Keys.BlobRef
import Celld.Keys.WakeEntry
import Celld.Schedule.CronNext
import Celld.Schedule.CloseScanner
import Celld.Peer.Auth
import Celld.Gate.Input
