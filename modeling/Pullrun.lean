import Pullrun.Proof.Oci.RoundTrip
import Pullrun.Proof.Service.Collect
import Pullrun.Proof.Service.Restart
import Pullrun.Proof.Service.Gc
import Pullrun.Proof.Service.PullRemove
import Pullrun.Proof.Oci.Commit
import Pullrun.Proof.Oci.Union
import Pullrun.Proof.Oci.Push
import Pullrun.Proof.Oci.Links
import Pullrun.Proof.Oci.LongLinks
import Pullrun.Proof.Service.TagLock
import Pullrun.Proof.Service.Policy
import Pullrun.Proof.Workload.Stop
import Pullrun.Proof.Workload.Gauge
import Pullrun.Proof.Workload.Retry
import Pullrun.Proof.Workload.Reuse
import Pullrun.Proof.Oci.Layout
import Pullrun.Proof.Vsock.Unknown
import Pullrun.Proof.Vm.Relaunch
import Pullrun.Proof.Workload.Mounts
import Pullrun.Proof.Workload.Paths
import Pullrun.Proof.Workload.CopyFile
import Pullrun.Proof.Workload.Staging
import Pullrun.Proof.Workload.Respawn
import Pullrun.Proof.Service.Release
import Pullrun.Proof.Service.GcRoots
import Pullrun.Proof.Workload.Diff
import Pullrun.Proof.Vm.Persistent
import Pullrun.Proof.Vsock.Client
import Pullrun.Proof.Guest.Piped
import Pullrun.Proof.Service.Networks
import Pullrun.Proof.Vm.Processes
import Pullrun.Proof.Vm.Pool
import Pullrun.Proof.Net.Firewall
import Pullrun.Proof.Net.Subnets
import Pullrun.Proof.Oci.Reference
import Pullrun.Proof.Sync.Bloom
import Pullrun.Proof.Gc.Guard
import Pullrun.Cli.Attach
import Pullrun.Vm.Init
import Pullrun.Oci.Platform
import Pullrun.Workload.Env
import Pullrun.Control.Scheduler
import Pullrun.Tools.Initramfs
import Pullrun.Compose.Services
import Pullrun.Vm.ColdBoot
import Pullrun.Proof.Store.Accounting
import Pullrun.Sync.BlockSync
import Pullrun.Control.FileStore
