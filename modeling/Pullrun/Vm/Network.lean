import Pullrun.Net.Ipam
import Pullrun.Vsock.Frame
import Pullrun.Workload.Launch

/-!
# The network interface of a virtual machine

The parts of `pullrun-vm/src/network.rs`, `lib.rs` and `pool.rs` that say what the interface of a machine is
called and which addresses it has. An address is a word; its octets are read off as `Ipv4Addr::octets`
does. SHA-256 is a parameter: nothing here depends on which function it is.
-/

namespace Pullrun.Vm

open Net List Digest

/-! ## Addresses -/

def ipv4 (a b c d : UInt8) : ℕ :=
  a.toNat * 16777216 + b.toNat * 65536 + c.toNat * 256 + d.toNat

def octets (ip : ℕ) : List ℕ :=
  [ip / 16777216 % 256, ip / 65536 % 256, ip / 256 % 256, ip % 256]

def bridgeName : Str := "pullrun-br0".toList

def gatewayIp : ℕ := ipv4 10 42 0 1

def netmask : ℕ := ipv4 255 255 0 0

instance neZero_bytes : NeZero (32 : ℕ) := ⟨by decide⟩
instance neZero_random : NeZero (16 : ℕ) := ⟨by decide⟩

def hashByte (d : Digest) (i : Fin 32) : UInt8 := d.bytes.get (i.cast d.len.symm)

def projectBase (sha256 : Bytes → Digest) (name : Str) : ℕ :=
  let h := sha256 (Vsock.asBytes name)
  ipv4 10 (hashByte h 0) (hashByte h 1) 0

/-- `derive_cidr`: the gateway, the netmask, and the range of the new `Ipam`. -/
def deriveCidr (sha256 : Bytes → Digest) (name : Str) : ℕ × ℕ × IpRange :=
  let h := sha256 (Vsock.asBytes name)
  (ipv4 10 (hashByte h 0) (hashByte h 1) 1, ipv4 255 255 255 0, ⟨projectBase sha256 name, 256⟩)

/-- The text of the subnet can be parsed: the `expect` in `derive_cidr` does not fail. -/
theorem fromCidr_projectBase (sha256 : Bytes → Digest) (name : Str) :
    IpRange.fromCidr (projectBase sha256 name) 24 = some (deriveCidr sha256 name).2.2 := by
  have haligned : projectBase sha256 name % 256 = 0 := by
    rw [projectBase, ipv4, show (0 : UInt8).toNat = 0 from rfl]
    omega
  rw [IpRange.fromCidr, if_neg (by decide), show 2 ^ (32 - 24) = 256 from rfl, haligned]
  rfl

/-- `{:02X}` for an octet. -/
def hexUpper (n : ℕ) : Str :=
  let digit (k : ℕ) := if k < 10 then Char.ofNat (48 + k) else Char.ofNat (55 + k)
  [digit (n / 16), digit (n % 16)]

def macFromIp (ip : ℕ) : Str :=
  "AA:FC".toList ++ (octets ip).flatMap fun o => ':' :: hexUpper o

/-! ## Names of tap devices -/

def hashPrefix (sha256 : Bytes → Digest) (id : Str) : Bytes := (sha256 (Vsock.asBytes id)).bytes.take 4

/-- `tap_name_for`: "Use a stable prefix and a hash of the id so we don't collide." -/
def tapNameFor (sha256 : Bytes → Digest) (id : Str) : Str :=
  "tap-".toList ++ Digest.hexEncode (hashPrefix sha256 id)

/-- `uuid_v4`, from the random bytes. -/
def uuidV4 (b : Fin 16 → UInt8) : Str :=
  let part (l : List UInt8) := Digest.hexEncode l
  part [b 0, b 1, b 2, b 3] ++ '-' :: part [b 4, b 5] ++ '-' :: part [b 6 &&& 0x0f ||| 0x40, b 7] ++
    '-' :: part [b 8 &&& 0x3f ||| 0x80, b 9] ++ '-' :: part [b 10, b 11, b 12, b 13, b 14, b 15]

def poolId (b : Fin 16 → UInt8) : Str := "pool-".toList ++ uuidV4 b

/-- `format!("tap-{}", &id[..8])` of `boot_pool_vm`. Five of the eight characters are always the same. -/
def poolTapName (b : Fin 16 → UInt8) : Str := "tap-".toList ++ (poolId b).take 8

/-- The three hexadecimal digits that are left of the random bytes. -/
def poolDigits (b : Fin 16 → UInt8) : ℕ × ℕ := ((b 0).toNat, (b 1).toNat / 16)

/-! ## `VmNetwork` -/

structure VmNetwork where
  tapName : Str
  bridgeName : Str
  guestIp : ℕ
  guestMac : Str
  netmask : ℕ
  gateway : ℕ
deriving DecidableEq

def createTapOnBridge (tapName : Str) (guestIp : ℕ) (bridge : Str) (netmask gateway : ℕ) : VmNetwork :=
  ⟨tapName, bridge, guestIp, macFromIp guestIp, netmask, gateway⟩

def createTap (tapName : Str) (guestIp : ℕ) : VmNetwork :=
  createTapOnBridge tapName guestIp bridgeName netmask gatewayIp

/-- `create_slirp_tap`: there is no bridge, and the name of it is empty. -/
def createSlirpTap (tapName : Str) (guestIp : ℕ) (netmask gateway : ℕ) : VmNetwork :=
  ⟨tapName, [], guestIp, macFromIp guestIp, netmask, gateway⟩

structure VmSpec where
  id : Str
  bridgeName : Option Str
  networkMode : NetworkMode
deriving DecidableEq

/-- The interface that `create` sets up in a cold boot, for an address it has allocated. -/
def VmSpec.network (sha256 : Bytes → Digest) (spec : VmSpec) (guestIp : ℕ) : VmNetwork :=
  let tapName := tapNameFor sha256 spec.id
  let (gw, nm) := match spec.bridgeName with
    | some name => ((deriveCidr sha256 name).1, (deriveCidr sha256 name).2.1)
    | none => (gatewayIp, netmask)
  if spec.networkMode = .slirp then createSlirpTap tapName guestIp nm gw
  else match spec.bridgeName with
    | some name => createTapOnBridge tapName guestIp name nm gw
    | none => createTap tapName guestIp

/-! ## Which of these names and addresses are different -/

theorem hexUpper_injective {m n : ℕ} (hm : m < 256) (hn : n < 256) (h : hexUpper m = hexUpper n) :
    m = n := by
  have hdigit : ∀ a < 16, ∀ b < 16,
      (if a < 10 then Char.ofNat (48 + a) else Char.ofNat (55 + a)) =
        (if b < 10 then Char.ofNat (48 + b) else Char.ofNat (55 + b)) → a = b := by decide
  simp only [hexUpper, cons.injEq, and_true] at h
  have hhigh := hdigit _ (by omega) _ (by omega) h.1
  have hlow := hdigit _ (by omega) _ (by omega) h.2
  omega

theorem macFromIp_injective {a b : ℕ} (ha : a < wordSize) (hb : b < wordSize)
    (h : macFromIp a = macFromIp b) : a = b := by
  rw [wordSize] at ha hb
  have hoctet : ∀ n : ℕ, n % 256 < 256 := fun n => Nat.mod_lt n (by decide)
  -- every octet is one colon and two digits
  simp only [macFromIp, octets, append_cancel_left_eq, flatMap_cons, flatMap_nil,
    append_nil, cons_append, cons.injEq, true_and] at h
  obtain ⟨h1, h⟩ := append_inj h rfl
  obtain ⟨h2, h⟩ := append_inj (cons.inj h).2 rfl
  obtain ⟨h3, h4⟩ := append_inj (cons.inj h).2 rfl
  have e1 := hexUpper_injective (hoctet _) (hoctet _) h1
  have e2 := hexUpper_injective (hoctet _) (hoctet _) h2
  have e3 := hexUpper_injective (hoctet _) (hoctet _) h3
  have e4 := hexUpper_injective (hoctet _) (hoctet _) (cons.inj h4).2
  omega

theorem hexEncode_injective {a b : Bytes} (h : hexEncode a = hexEncode b) : a = b := by
  have hdecode := hexDecode_hexEncode a
  rw [h, hexDecode_hexEncode] at hdecode
  exact (Except.ok.inj hdecode).symm

/-- Two machines of a cold boot have one tap name if the hashes of their ids begin with the same four
    bytes. -/
theorem tapNameFor_eq_iff (sha256 : Bytes → Digest) (id id' : Str) :
    tapNameFor sha256 id = tapNameFor sha256 id' ↔ hashPrefix sha256 id = hashPrefix sha256 id' := by
  constructor
  · intro h
    exact hexEncode_injective (append_cancel_left h)
  · intro h
    rw [tapNameFor, tapNameFor, h]

theorem hexDigit_injective {m n : ℕ} (hm : m < 16) (hn : n < 16)
    (h : hexDigit m = hexDigit n) : m = n := by
  have hval := hexVal_hexDigit hm
  rw [h, hexVal_hexDigit hn, Option.some.injEq] at hval
  exact hval.symm

theorem poolTapName_eq (b : Fin 16 → UInt8) :
    poolTapName b = "tap-pool-".toList ++ [hexDigit ((b 0).toNat / 16),
      hexDigit ((b 0).toNat % 16), hexDigit ((b 1).toNat / 16)] := rfl

/-- Two machines of the pool have one tap name if three digits agree. -/
theorem poolTapName_eq_iff (b b' : Fin 16 → UInt8) :
    poolTapName b = poolTapName b' ↔ poolDigits b = poolDigits b' := by
  have hlt := fun (x : UInt8) => x.toNat_lt
  constructor
  · intro h
    rw [poolTapName_eq, poolTapName_eq, append_cancel_left_eq] at h
    simp only [cons.injEq, and_true] at h
    have h1 := hexDigit_injective (by have := hlt (b 0); omega) (by have := hlt (b' 0); omega) h.1
    have h2 := hexDigit_injective (by omega) (by omega) h.2.1
    have h3 := hexDigit_injective (by have := hlt (b 1); omega) (by have := hlt (b' 1); omega) h.2.2
    refine Prod.ext ?_ h3
    show (b 0).toNat = (b' 0).toNat
    omega
  · intro h
    have h0 : (b 0).toNat = (b' 0).toNat := congrArg Prod.fst h
    have h1 : (b 1).toNat / 16 = (b' 1).toNat / 16 := congrArg Prod.snd h
    rw [poolTapName_eq, poolTapName_eq, h0, h1]

/-- A machine of the pool and one of a cold boot never share a tap name. -/
theorem tapNameFor_ne_poolTapName (sha256 : Bytes → Digest) (id : Str) (b : Fin 16 → UInt8) :
    tapNameFor sha256 id ≠ poolTapName b := by
  intro h
  have htail := append_cancel_left h
  cases hbytes : hashPrefix sha256 id with
  | nil =>
    rw [hbytes] at htail
    cases htail
  | cons x xs =>
    rw [hbytes] at htail
    have hlt := x.toNat_lt
    exact (hexDigit_ne (by omega)).2 (List.cons.inj htail).1

end Pullrun.Vm
