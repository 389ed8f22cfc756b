import Pullrun.Service.Sample
import Pullrun.Workload.Launch

/-!
# A small daemon

Surroundings in which a request can be run by evaluation.
-/

namespace Pullrun.Host

def plainEnv : LaunchEnv where
  toLowercase := fun s => s
  canonicalize := fun _ => none
  storeRoot := "/var/lib/pullrun".toList
  policyFormats := Sample.policyFormats
  policyEngine := none
  imageTags := ∅
  store := .new
  manifestArch := fun _ => some "amd64".toList
  currentArch := "amd64".toList
  ensureBinfmt := fun _ => false
  vmBackend := false
  kernelStaged := fun _ => false
  readSecretRaw := fun _ => none
  readConfigRaw := fun _ => none

/-- Nothing goes wrong but what runc refuses. -/
def allWell : ExecOutcome where
  runcFound := true
  built := true
  joined := true
  spawned := true
  runs := true
  networked := true
  published := false
  vmSession := false
  vmDir := false
  vmCreated := false
  vmStarted := false
  handle := ⟨.container, 8, none⟩
  now := 1

def plainRun : RunRequest where
  id := "w".toList
  rootDigest := List.replicate 64 '0'
  backend := "container".toList
  networkMode := []
  hasInboundPorts := false
  kernelImage := []
  secrets := []
  configs := []
  mounts := []
  restartPolicy := .no

end Pullrun.Host
