import SoloMiner.Pool.Poller
import SoloMiner.Rpc.Methods

/-!
# Whether a node is fit to mine on

A node that has lost its peers goes on answering as if it were caught up. So what is asked
is not only whether it has finished its download, but also whether it has any peers and
how old its tip is.
-/

namespace SoloMiner

/-- The name that the node reports for the network. -/
def Network.asStr : Network → Str
  | .regtest => "regtest".toList
  | .testnet4 => "testnet4".toList
  | .mainnet => "main".toList

namespace Readiness

/-- How far behind the present the tip may be, in seconds. -/
def MAX_TIP_AGE : Int64 := 3 * 60 * 60

/-- Why a node is not fit to mine on. -/
inductive NotReady where
  /-- The node is running another network than was asked for. -/
  | wrongNetwork (wanted found : Str)
  /-- The node has not finished its initial download. -/
  | syncing (blocks headers : UInt32)
  /-- The node has no peers, so its view of the chain cannot advance. -/
  | noPeers
  /-- The tip is so old that the node has stopped keeping up. -/
  | staleTip (age : Int64)
  deriving DecidableEq

/-- Whether the node is worth mining on, at this Unix time. -/
def check (network : Network) (info : BlockchainInfo) (peers : UInt32) (now : Int64) :
    Except NotReady Unit :=
  if info.chain ≠ network.asStr then .error (.wrongNetwork network.asStr info.chain)
  else if info.initialBlockDownload || info.headers > info.blocks then
    .error (.syncing info.blocks info.headers)
  -- A private chain has no peers by design, and its blocks may be of any age.
  else if network = .regtest then .ok ()
  else if peers = 0 then .error .noPeers
  else
    let age := now - info.time.toInt64
    if age > MAX_TIP_AGE then .error (.staleTip age) else .ok ()

/-- **What a fit node is**: on the network, caught up and, unless the chain is private, with
peers and a tip that is not too old. -/
structure Fit (network : Network) (info : BlockchainInfo) (peers : UInt32) (now : Int64) :
    Prop where
  chain : info.chain = network.asStr
  downloaded : info.initialBlockDownload = false
  caughtUp : info.headers ≤ info.blocks
  peers : network ≠ .regtest → peers ≠ 0
  age : network ≠ .regtest → now - info.time.toInt64 ≤ MAX_TIP_AGE

/-- The check lets precisely the fit nodes pass. -/
theorem check_eq_ok_iff {network : Network} {info : BlockchainInfo} {peers : UInt32}
    {now : Int64} : check network info peers now = .ok () ↔ Fit network info peers now := by
  unfold check
  dsimp only
  constructor
  · intro h
    split_ifs at h with hchain hsyncing hregtest hpeers hage
    all_goals
      rw [Bool.or_eq_true, decide_eq_true_eq, not_or, Bool.not_eq_true] at hsyncing
      have hcaughtUp := UInt32.not_lt.mp hsyncing.2
    · exact ⟨not_not.mp hchain, hsyncing.1, hcaughtUp, absurd hregtest, absurd hregtest⟩
    · exact ⟨not_not.mp hchain, hsyncing.1, hcaughtUp, fun _ => hpeers,
        fun _ => Int64.not_lt.mp hage⟩
  · intro h
    have hsyncing :
        ¬ (info.initialBlockDownload || decide (info.headers > info.blocks)) = true := by
      rw [Bool.or_eq_true, decide_eq_true_eq, not_or, Bool.not_eq_true]
      exact ⟨h.downloaded, UInt32.not_lt.mpr h.caughtUp⟩
    rw [if_neg (not_not.mpr h.chain), if_neg hsyncing]
    by_cases hregtest : network = .regtest
    · rw [if_pos hregtest]
    · rw [if_neg hregtest, if_neg (h.peers hregtest),
        if_neg (Int64.not_lt.mpr (h.age hregtest))]

end Readiness

end SoloMiner
