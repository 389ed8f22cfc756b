import Pullrun.Store.Digest

/-!
# Outbound NAT for bridges

`pullrun-net/src/firewall.rs`: one trait, `FirewallBackend`, and two implementations of it. `enable_nat` is to
install three rules for a bridge, and `disable_nat` to remove them.

The commands are modelled by what they do to a set of rules. `iptables -C` finds a rule that is the same in
all its parts, `-A` appends one and `-D` deletes the first; a rule that the calls do not name is neither seen
nor touched. `nft -f` makes the table of pullrun if it is not there, and appends to its chains; `delete table`
removes the table with all that is in it; `list ruleset` prints this table and all others.
-/

namespace Pullrun.Net.Firewall

/-- A text that stands for itself in a script and in a listing. -/
abbrev Plain := { s : Str // ∀ c ∈ s, c ≠ '"' ∧ c ≠ ' ' ∧ c ≠ '\n' }

inductive Rule
  /-- In `POSTROUTING`: masquerade what comes from this network and leaves by this interface. -/
  | masquerade (network iface : Plain)
  | forward (bridge iface : Plain)
  | forwardBack (iface bridge : Plain)
deriving DecidableEq

structure Bridge where
  name : Plain
  cidr : Plain
  iface : Plain
deriving DecidableEq

variable (network : Plain → Plain)

/-- "The three rules Pullrun needs for bridge-mode outbound NAT." -/
def Bridge.rules (b : Bridge) : List Rule :=
  [.masquerade (network b.cidr) b.iface, .forward b.name b.iface, .forwardBack b.iface b.name]

/-! ## iptables -/

/-- Check for a rule, and append it if it is not there; `installed` is set in that case. -/
def ensure (acc : Bool × List Rule) (r : Rule) : Bool × List Rule :=
  if r ∈ acc.2 then acc else (true, acc.2 ++ [r])

def iptablesEnable (rules : List Rule) (b : Bridge) : Bool × List Rule :=
  (b.rules network).foldl ensure (false, rules)

/-- `IptablesBackend::disable_nat`: a rule that is not there is no error. -/
def iptablesDisable (rules : List Rule) (b : Bridge) : List Rule :=
  (b.rules network).foldl List.erase rules

/-! ## nftables -/

/-- What stands after the interface in the listing of a `masquerade` rule. -/
def saddr (cidr : Str) : Str := " ip saddr ".toList ++ (cidr ++ ' ' :: "masquerade".toList)

def Rule.line : Rule → Str
  | .masquerade network iface => "\t\toifname ".toList ++ '"' :: (iface.1 ++ '"' :: saddr network.1)
  | .forward bridge iface =>
    "\t\tiifname ".toList ++
      '"' :: (bridge.1 ++ '"' :: (" oifname ".toList ++ '"' :: (iface.1 ++ '"' :: " accept".toList)))
  | .forwardBack iface bridge =>
    "\t\tiifname ".toList ++
      '"' :: (iface.1 ++ '"' :: (" oifname ".toList ++
        '"' :: (bridge.1 ++ '"' :: " ct state established,related accept".toList)))

def Rule.isNat : Rule → Bool
  | .masquerade _ _ => true
  | _ => false

/-- What is printed of the table around its rules, in three parts. -/
def tableHead : List Str :=
  ["table inet pullrun \x7b".toList, "\tchain postrouting \x7b".toList,
    "\t\ttype nat hook postrouting priority srcnat; policy accept;".toList]

def tableMiddle : List Str :=
  ["\t\x7d".toList, [], "\tchain forward \x7b".toList,
    "\t\ttype filter hook forward priority filter; policy accept;".toList]

def tableEnd : List Str := ["\t\x7d".toList, "\x7d".toList]

/-- The table of pullrun in a listing. It is there as long as it has rules. -/
def tableLines (rules : List Rule) : List Str :=
  if rules = [] then []
  else tableHead ++ ((rules.filter Rule.isNat).map Rule.line ++
    (tableMiddle ++ ((rules.filter (!Rule.isNat ·)).map Rule.line ++ tableEnd)))

/-- `nft list ruleset`, with these lines for the other tables of the host. -/
def listing (others : List Str) (rules : List Rule) : Str :=
  (others ++ tableLines rules).flatMap (· ++ ['\n'])

def ruleExists (others : List Str) (rules : List Rule) (pattern : Str) : Bool :=
  pattern <:+: listing others rules

def masqPattern (cidr iface : Str) : Str := "oifname ".toList ++ '"' :: (iface ++ '"' :: saddr cidr)

def nftablesEnable (others : List Str) (rules : List Rule) (b : Bridge) : Bool × List Rule :=
  if ruleExists others rules (masqPattern b.cidr.1 b.iface.1) then (false, rules)
  else (true, rules ++ b.rules network)

/-- `NftablesBackend::disable_nat`: "delete table inet pullrun". -/
def nftablesDisable (_rules : List Rule) (_b : Bridge) : List Rule := []

/-! ## Sequences of calls -/

inductive Backend
  | iptables
  | nftables (others : List Str)

/-- The rules that are installed, and the bridges whose last call was `enable_nat`, with the network and the
interface of that call. A bridge is known by its name: a later call may come with others. -/
structure State where
  rules : List Rule
  enabled : List Bridge

inductive Call
  | enable (b : Bridge)
  | disable (b : Bridge)

def State.new : State := ⟨[], []⟩

def enableNat : Backend → List Rule → Bridge → Bool × List Rule
  | .iptables => iptablesEnable network
  | .nftables others => nftablesEnable network others

def disableNat : Backend → List Rule → Bridge → List Rule
  | .iptables => iptablesDisable network
  | .nftables _ => nftablesDisable

def State.step (backend : Backend) (s : State) : Call → Option State
  | .enable b => some ⟨(enableNat network backend s.rules b).2, b :: s.enabled.filter (·.name ≠ b.name)⟩
  | .disable b => some ⟨disableNat network backend s.rules b, s.enabled.filter (·.name ≠ b.name)⟩

def State.wanted (s : State) : List Rule := s.enabled.flatMap (Bridge.rules network)

/-- These rules are installed, once each, and no others. -/
def State.Exact (s : State) : Prop := s.rules.Nodup ∧ ∀ r, r ∈ s.rules ↔ r ∈ s.wanted network

/-- The listing has a line for the network, as the call writes it, and the interface. -/
def State.Listed (others : List Str) (s : State) (b : Bridge) : Prop :=
  Rule.masquerade b.cidr b.iface ∈ s.wanted network ∨
    ∃ line ∈ others, masqPattern b.cidr.1 b.iface.1 <:+: line

instance (others : List Str) (s : State) (b : Bridge) : Decidable (s.Listed network others b) :=
  inferInstanceAs (Decidable (_ ∨ ∃ line ∈ _, _))

/-- The rule is one of another bridge that is enabled. -/
def State.Others (s : State) (b : Bridge) (r : Rule) : Prop :=
  ∃ b' ∈ s.enabled, b'.name ≠ b.name ∧ r ∈ b'.rules network

/-- What the bridge was enabled with before is what this call names, or is needed by another bridge. -/
def State.Covers (s : State) (b : Bridge) : Prop :=
  ∀ b' ∈ s.enabled, b'.name = b.name → ∀ r ∈ b'.rules network, r ∈ b.rules network ∨ s.Others network b r

instance (s : State) (b : Bridge) (r : Rule) : Decidable (s.Others network b r) :=
  inferInstanceAs (Decidable (∃ b' ∈ _, _))

instance (s : State) (b : Bridge) : Decidable (s.Covers network b) :=
  inferInstanceAs (Decidable (∀ b' ∈ _, _))

/-- No call comes for a bridge with another network or interface than it was enabled with (`Covers`), and no
    rule is shared. With iptables sharing matters when a bridge is disabled, for the interface with the
    network. With nftables a bridge may be disabled only if no other is enabled; and where one is enabled,
    either its line is listed and all its rules are there, or it is not and none is. -/
def State.Unshared : Backend → State → Call → Prop
  | .iptables, s, .enable b => s.Covers network b
  | .iptables, s, .disable b => s.Covers network b ∧
    ∀ b' ∈ s.enabled, b'.name ≠ b.name → b'.iface = b.iface → network b'.cidr ≠ network b.cidr
  | .nftables others, s, .enable b => s.Covers network b ∧
    (s.Listed network others b → ∀ r ∈ b.rules network, r ∈ s.wanted network) ∧
      (¬ s.Listed network others b → ∀ r ∈ b.rules network, r ∉ s.wanted network)
  | .nftables _, s, .disable b => ∀ b' ∈ s.enabled, b'.name = b.name

instance : ∀ backend s call, Decidable (State.Unshared network backend s call)
  | .iptables, _, .enable _ => inferInstanceAs (Decidable (State.Covers ..))
  | .iptables, _, .disable _ => inferInstanceAs (Decidable (_ ∧ ∀ b' ∈ _, _ → _ → _))
  | .nftables _, _, .enable _ => inferInstanceAs (Decidable (_ ∧ (_ → ∀ r ∈ _, _) ∧ (¬ _ → ∀ r ∈ _, _)))
  | .nftables _, _, .disable _ => inferInstanceAs (Decidable (∀ b' ∈ _, _))

end Pullrun.Net.Firewall
