import Pullrun.Net.Proxy
import Pullrun.Vm.Addresses

/-!
# What a failed cold boot leaves

The cold boot of `FirecrackerExecutor::create`, `pullrun-vm/src/lib.rs`, from the allocation of the address
on. Every stage may return with an error, and none takes back what an earlier one did. A tap device is there
as long as its descriptor is open, so that one whose set-up fails is gone with it.
-/

namespace Pullrun.Vm

open Net

/-- What the calls of `create` share, and the tap devices of the host. -/
structure ColdHost where
  ipam : Ipam
  taps : List Str
  tapFds : Str → Bool
  slirpChildren : Str → Bool
  proxy : ProxyNetwork

inductive CreateError
  /-- `no IPs in project subnet`, `no IPs available in shared IPAM` -/
  | noAddress
  /-- `slirp network setup: {e}`, `bridge setup: {e}`, `vm network setup: {e}` -/
  | network
  /-- `proxy register: {e}` -/
  | proxyRegister (e : NetError)
  /-- The directory of the machine, its root file system, `kernel_path` or `network.json`. -/
  | files

/-- What the system says to a call: `plumbed` is an error if the network cannot be set up, with whether a
tap device of that name was deleted first, and `written` is whether all files can be written. -/
structure Answers where
  plumbed : Except Bool Unit
  rules : List (NetworkRule × Option UInt16)
  written : Bool

/-- `guest_ip.to_string()`. -/
def ipText (ip : ℕ) : Str :=
  ['.'].intercalate ([2 ^ 24, 2 ^ 16, 2 ^ 8, 1].map fun n => Nat.toDigits 10 (ip / n % 256))

namespace ColdHost

variable (sha256 : Bytes → Digest) (range : IpRange)

def plumb (h : ColdHost) (spec : VmSpec) : ColdHost :=
  if spec.networkMode = .slirp then
    { h with
      taps := tapNameFor sha256 spec.id :: h.taps
      slirpChildren := Function.update h.slirpChildren spec.id true }
  else
    { h with
      taps := tapNameFor sha256 spec.id :: h.taps
      tapFds := Function.update h.tapFds spec.id true }

/-- The host when the network could not be set up. slirp4netns does not look for an old device. -/
def unplumbed (h : ColdHost) (spec : VmSpec) (deleted : Bool) : ColdHost :=
  if deleted ∧ spec.networkMode ≠ .slirp then
    { h with taps := h.taps.filter (· ≠ tapNameFor sha256 spec.id) }
  else h

def create (h : ColdHost) (spec : VmSpec) (a : Answers) : Except CreateError Unit × ColdHost :=
  match ({ Machines.new with ipam := h.ipam } : Machines).address sha256 range spec with
  | (none, ipam) => (.error .noAddress, { h with ipam := ipam })
  | (some ip, ipam) =>
    match a.plumbed with
    | .error deleted => (.error .network, { h.unplumbed sha256 spec deleted with ipam := ipam })
    | .ok () =>
      match h.proxy.registerEndpoint spec.id (ipText ip) a.rules with
      | (.error e, proxy) =>
        (.error (.proxyRegister e), { h.plumb sha256 spec with ipam := ipam, proxy := proxy })
      | (.ok _, proxy) =>
        (if a.written then .ok () else .error .files,
          { h.plumb sha256 spec with ipam := ipam, proxy := proxy })

/-- No tap device, descriptor, slirp process or listener is there for the id. -/
def Clean (h : ColdHost) (id : Str) : Prop :=
  tapNameFor sha256 id ∉ h.taps ∧ h.tapFds id = false ∧ h.slirpChildren id = false ∧
    h.proxy.activeSessions id = none ∧ ∀ l ∈ h.proxy.live, l.owner ≠ id

variable {sha256 range} {h h' : ColdHost} {spec : VmSpec} {a : Answers} {e : CreateError} {ip : ℕ}

theorem address_ipam {ipam ipam' : Ipam}
    (h : ({ Machines.new with ipam := ipam } : Machines).address sha256 range spec = (some ip, ipam')) :
    ipam' = ipam ↔ spec.bridgeName.isSome = true := by
  unfold Machines.address at h
  cases hbridge : spec.bridgeName with
  | some name =>
    rw [hbridge] at h
    exact iff_of_true (congrArg Prod.snd h).symm rfl
  | none =>
    rw [hbridge] at h
    refine iff_of_false ?_ (by simp)
    rintro rfl
    dsimp only at h
    unfold Ipam.allocate at h
    split at h
    · cases h
    · have hnext := congrArg (·.2.next) h
      dsimp only at hnext
      omega

/-- Once the network is set up, the descriptor or the process is kept for the id. -/
theorem not_clean_plumb (ipam : Ipam) (proxy : ProxyNetwork) :
    ¬ Clean sha256 { h.plumb sha256 spec with ipam := ipam, proxy := proxy } spec.id := by
  rintro ⟨-, hfd, hslirp, -⟩
  unfold plumb at hfd hslirp
  split at hfd
  · simp_all
  · simp_all

/-- A set-up that fails adds nothing, and takes away the old tap device if it has come to delete it. -/
theorem clean_unplumbed_iff {deleted : Bool} : Clean sha256 (h.unplumbed sha256 spec deleted) spec.id ↔
    (tapNameFor sha256 spec.id ∉ h.taps ∨ deleted = true ∧ spec.networkMode ≠ .slirp) ∧
      h.tapFds spec.id = false ∧ h.slirpChildren spec.id = false ∧
      h.proxy.activeSessions spec.id = none ∧ ∀ l ∈ h.proxy.live, l.owner ≠ spec.id := by
  unfold unplumbed
  split
  · rename_i hdeleted
    have htap : tapNameFor sha256 spec.id ∉ h.taps.filter (· ≠ tapNameFor sha256 spec.id) := by simp
    exact and_congr_left' (iff_of_true htap (.inr hdeleted))
  · rename_i hkept
    exact and_congr_left' (or_iff_left hkept).symm

/-- **A boot that fails once it has an address leaves nothing for the id, and the pool as it was, exactly
if** a bridge is named, the network could not be set up, and before the call there was no descriptor, slirp
process, session or listener for the id, and no tap device of its name unless the set-up has deleted it. -/
theorem create_failed_clean_iff (hfail : h.create sha256 range spec a = (.error e, h'))
    (haddress : e ≠ .noAddress) : (Clean sha256 h' spec.id ∧ h'.ipam = h.ipam) ↔
      spec.bridgeName.isSome = true ∧ ∃ deleted, a.plumbed = .error deleted ∧
        (tapNameFor sha256 spec.id ∉ h.taps ∨ deleted = true ∧ spec.networkMode ≠ .slirp) ∧
        h.tapFds spec.id = false ∧ h.slirpChildren spec.id = false ∧
        h.proxy.activeSessions spec.id = none ∧ ∀ l ∈ h.proxy.live, l.owner ≠ spec.id := by
  simp only [← clean_unplumbed_iff]
  unfold create at hfail
  split at hfail
  · cases hfail
    exact absurd rfl haddress
  · rename_i ip ipam hip
    rw [← address_ipam hip]
    split at hfail
    · rename_i deleted hplumbed
      cases hfail
      rw [and_comm, hplumbed]
      refine and_congr_right fun _ => ⟨fun hclean => ⟨deleted, rfl, hclean⟩, ?_⟩
      rintro ⟨_, ⟨⟩, hclean⟩
      exact hclean
    · rename_i hplumbed
      refine iff_of_false (fun hclean => ?_) (by simp [hplumbed])
      split at hfail
      · cases hfail
        exact not_clean_plumb _ _ hclean.1
      · have hhost := congrArg Prod.snd hfail
        dsimp only at hhost
        subst hhost
        exact not_clean_plumb _ _ hclean.1

/-- A host on which nothing runs. -/
def idle : ColdHost := ⟨.new, [], fun _ => false, fun _ => false, ⟨fun _ => none, [], 0⟩⟩

theorem failed_keeps_tap : ∃ e h', idle.create (fun _ => zeroDigest) ⟨0, 65536⟩ ⟨['v'], none, .bridge⟩
    ⟨.ok (), [], false⟩ = (.error e, h') ∧ h'.tapFds ['v'] = true ∧ h'.ipam.next = idle.ipam.next + 1 :=
  ⟨_, _, rfl, rfl, rfl⟩

theorem failed_bridge_clean : ∃ e h', idle.create (fun _ => zeroDigest) ⟨0, 65536⟩
    ⟨['v'], some ['b'], .bridge⟩ ⟨.error false, [], true⟩ = (.error e, h') ∧ e ≠ .noAddress ∧
      Clean (fun _ => zeroDigest) h' ['v'] ∧ h'.ipam = idle.ipam := by
  have hfail : idle.create (fun _ => zeroDigest) ⟨0, 65536⟩ ⟨['v'], some ['b'], .bridge⟩
      ⟨.error false, [], true⟩ = (.error .network, _) := rfl
  refine ⟨_, _, hfail, by simp, (create_failed_clean_iff hfail (by simp)).mpr ⟨rfl, false, rfl, ?_⟩⟩
  simp [idle]

end ColdHost

end Pullrun.Vm
