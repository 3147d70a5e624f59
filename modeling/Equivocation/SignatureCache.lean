import Equivocation.Block
import Equivocation.Lru
import Equivocation.Scheme

namespace Equivocation

/-- How a cache checks signatures, how many it may hold, and how many make a quorum. -/
structure CachePolicy where
  keys : Keyring
  capacity : Nat
  quorum : Nat

structure SignatureCache where
  entries : Lru (Hash × Signature) := .empty
  checks : Nat := 0

namespace SignatureCache

variable (policy : CachePolicy)

def size (c : SignatureCache) : Nat := c.entries.size

def remember (c : SignatureCache) (hash : Hash) (s : Signature) : SignatureCache :=
  if policy.capacity = 0 then c
  else { c with entries := c.entries.insert (hash, s) policy.capacity }

def sign (hash : Hash) (c : SignatureCache) : Signature × SignatureCache :=
  let s := policy.keys.sign hash
  (s, remember policy c hash s)

/-- A signature in the cache is valid; any other is checked, and remembered if it is valid. -/
def verify (s : Signature) (hash : Hash) (c : SignatureCache) : Bool × SignatureCache :=
  match c.entries.promote? (hash, s) with
  | some entries => (true, { c with entries })
  | none =>
    let checked := { c with checks := c.checks + 1 }
    if policy.keys.verify s hash then (true, remember policy checked hash s) else (false, checked)

def lookUp (hash : Hash) : List Signature → SignatureCache → Nat × List Signature × SignatureCache
  | [], c => (0, [], c)
  | s :: ss, c =>
    match c.entries.promote? (hash, s) with
    | some entries =>
      let (cached, rest, c) := lookUp hash ss { c with entries }
      (cached + 1, rest, c)
    | none =>
      let (cached, rest, c) := lookUp hash ss c
      (cached, s :: rest, c)

def countValid (hash : Hash) : List Signature → SignatureCache → Nat × SignatureCache
  | [], c => (0, c)
  | s :: ss, c =>
    let (valid, c) := verify policy s hash c
    let (count, c) := countValid hash ss c
    (if valid then count + 1 else count, c)

/-- At least a quorum of different signatures is valid. The genesis block needs no signatures. -/
def verifyAggregate (ss : List Signature) (hash : Hash) (c : SignatureCache) :
    Bool × SignatureCache :=
  if hash = Block.genesisHash then (true, c)
  else
    let distinct := ss.eraseDups
    if distinct.length < policy.quorum then (false, c)
    else
      let (cached, rest, c) := lookUp hash distinct c
      if policy.quorum ≤ cached then (true, c)
      else
        let (valid, c) := countValid policy hash rest c
        (decide (policy.quorum ≤ cached + valid), c)

def verifyQc (qc : QuorumCertificate) (c : SignatureCache) : Bool × SignatureCache :=
  if qc.isGenesis then (true, c) else verifyAggregate policy qc.signatures qc.block c

def verifyTc (tc : TimeoutCertificate) (c : SignatureCache) : Bool × SignatureCache :=
  if tc.view = View.zero then (false, c) else verifyAggregate policy tc.signatures tc.view.hash c

end SignatureCache

end Equivocation
