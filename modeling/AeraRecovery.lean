import AeraRecovery.Abl.ExitWarning
import AeraRecovery.Browser.Runtime
import AeraRecovery.FlashLog
import AeraRecovery.FlashMounts.Plan
import AeraRecovery.ImageTargets
import AeraRecovery.ImageZip.Extract
import AeraRecovery.ImageZip.Requirements
import AeraRecovery.ImageZip.Review
import AeraRecovery.InfoManager
import AeraRecovery.LockSecurity.Guesses
import AeraRecovery.Payload.InspectArb
import AeraRecovery.Payload.Parallel
import AeraRecovery.Payload.Reports
import AeraRecovery.PcConnection.Cleanup
import AeraRecovery.PcConnection.Sessions
import AeraRecovery.PcStorage.Coherence
import AeraRecovery.PcStorage.Matching
import AeraRecovery.PluginApi.ClipboardTrace
import AeraRecovery.PluginApi.StorageLease
import AeraRecovery.PluginApi.TextInput
import AeraRecovery.Plugins.Isolation
import AeraRecovery.Registration.Commit
import AeraRecovery.Root.BlockName
import AeraRecovery.Root.Recovery
import AeraRecovery.Rpc.LogLines
import AeraRecovery.Rpc.Sessions
import AeraRecovery.ScreenLock.Unlock
import AeraRecovery.Secrets.Credentials
import AeraRecovery.Secrets.ReadYourWrites
import AeraRecovery.Settings.Sidecars
import AeraRecovery.Sideload.Pinning
import AeraRecovery.Super.FlashBatch
import AeraRecovery.TarBackup.Complete
import AeraRecovery.Uncrypt.Published
import AeraRecovery.Verifier.Authentic
import AeraRecovery.Verifier.Pkcs7
