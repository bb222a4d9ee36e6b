import KaspaMiner.Proof.Decodable
import KaspaMiner.Proof.Swap.Wakeup
import KaspaMiner.Proof.Swap.Refine
import KaspaMiner.Proof.Lifetime
import KaspaMiner.Proof.Devfund
import KaspaMiner.Proof.Templates
import KaspaMiner.Proof.HeavyHash
import KaspaMiner.Proof.Uint256
import KaspaMiner.Proof.Xoshiro
import KaspaMiner.Proof.Failure
import KaspaMiner.Proof.Address
import KaspaMiner.Proof.Percent
import KaspaMiner.Proof.Accounting
import KaspaMiner.Proof.CShake
import KaspaMiner.Proof.Threshold
import KaspaMiner.Proof.Accepted
import KaspaMiner.Proof.Keccak.Hashers
import KaspaMiner.Proof.Session
import KaspaMiner.Proof.Requests
