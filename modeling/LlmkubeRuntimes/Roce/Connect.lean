import LlmkubeRuntimes.Lib.Steps
import LlmkubeRuntimes.Roce.Routes

/-!
# Connecting the queue pairs

`Proxy.connect` flattens a rank's route table and hands it to `roce_connect`,
which checks it, remembers the local device of every rail and moves one queue
pair per peer and rail to its connected state.

* `Hca`, `Blob`, `Ctx`: the opened devices of a rank, what it publishes about
  them, and the context of its proxy;
* `Links`: the fields of the context that `roce_connect` sets, with the queue
  pairs it connected;
* `checkRail`, `connectRail`: the bodies of its two loops.

The verbs that move a queue pair are not in the repository: `modify h p attr`
says whether they succeed for device `h` and rank `p`.
-/

namespace LlmkubeRuntimes.Roce

open LlmkubeRuntimes.Lib

def roceMaxPeers : Nat := 16
def roceMaxHcas : Nat := 4
def roceMaxRails : Nat := 2
def rocePort : Nat := 1

/-! ## Devices and contexts -/

/-- An opened RDMA device; `qpNum p` is the number of its queue pair reserved for rank `p`. -/
structure Hca where
  mtu : Nat
  lid : Nat
  gid : Nat
  rkey : Nat
  qpNum : Nat → Nat

/-- `roce_blob_t`: what a rank publishes about its region and its devices. -/
structure Blob where
  regionAddr : Nat
  rkey : Nat → Nat
  mtu : Nat → Nat
  lid : Nat → Nat
  gid : Nat → Nat
  /-- Indexed by the device, then by the rank it is reserved for. -/
  qpNum : Nat → Nat → Nat
  deriving Inhabited

/-- `roce_ctx_t` as opened; its arrays hold `roceMaxPeers` ranks and `roceMaxHcas` devices. -/
structure Ctx where
  world : Nat
  rank : Nat
  nHca : Nat
  gidIndex : Nat
  trafficClass : Nat
  regionAddr : Nat
  hca : Nat → Hca
  rank_lt : rank < world
  world_le : world ≤ roceMaxPeers
  nHca_le : nHca ≤ roceMaxHcas

/-- The fields of `ibv_qp_attr` that `connect_qp` sets. -/
structure QpAttr where
  pathMtu : Nat
  destQpNum : Nat
  rqPsn : Nat
  maxDestRdAtomic : Nat
  minRnrTimer : Nat
  isGlobal : Nat
  dlid : Nat
  sl : Nat
  srcPathBits : Nat
  portNum : Nat
  dgid : Nat
  sgidIndex : Nat
  hopLimit : Nat
  trafficClass : Nat
  deriving DecidableEq, Repr

/-- The queue pair of local device `h` for rank `p`, moved to its connected state. -/
structure QueuePair where
  h : Nat
  p : Nat
  attr : QpAttr
  deriving DecidableEq, Repr

/-- What `roce_connect` sets in the context. -/
structure Links where
  nRail : Nat
  /-- Indexed by the peer, then by the rail. -/
  railHca : Nat → Nat → Int
  peerAddr : Nat → Nat
  /-- Indexed by the rail, then by the peer. -/
  peerRkey : Nat → Nat → Nat
  /-- The queue pairs connected so far, in order. -/
  qps : List QueuePair

/-- What `Proxy.connect` and `roce_connect` refuse. -/
inductive ConnectError where
  /-- `BLOB_STRUCT_ERR` -/
  | blobStruct
  /-- `RoCE routes must list every rank` -/
  | listEveryRank
  /-- `RoCE routes to rank {peer} have {found} rails, expected {rails}` -/
  | unequalRails (peer found rails : Nat)
  /-- `peer blob buffer too small` -/
  | blobsTooSmall
  /-- `invalid rail count %d` -/
  | railCount (nRail : Nat)
  /-- `invalid route to rank %d rail %d: %d -> %d` -/
  | invalidRoute (p k : Nat) (h r : Int)
  /-- `rank %d rails %d and %d share HCA %d` -/
  | sharedHca (p j k : Nat) (h : Int)
  /-- A verb of `connect_qp` failed. -/
  | modifyQp (h p : Nat)
  deriving DecidableEq, Repr

/-! ## `roce_connect` -/

/-- The attributes with which `connect_qp` connects device `h` to the peer's device `r`. -/
def connectQp (c : Ctx) (h r : Nat) (peer : Blob) : QpAttr where
  pathMtu := min (peer.mtu r) (c.hca h).mtu
  destQpNum := peer.qpNum r c.rank
  rqPsn := 0
  maxDestRdAtomic := 1
  minRnrTimer := 12
  isGlobal := 1
  dlid := peer.lid r
  sl := 0
  srcPathBits := 0
  portNum := rocePort
  dgid := peer.gid r
  sgidIndex := c.gidIndex % 2 ^ 8
  hopLimit := 64
  trafficClass := c.trafficClass % 2 ^ 8

/-- `t[i][j] = x`. -/
def set2 {α : Type} (t : Nat → Nat → α) (i j : Nat) (x : α) : Nat → Nat → α :=
  fun i' j' => if i' = i ∧ j' = j then x else t i' j'

section
variable (c : Ctx) (routes : List Int) (nRail : Nat)

/-- The local device that the table gives for a rail to `p`. -/
def localOf (p k : Nat) : Int := routes.getD ((p * nRail + k) * 2) 0

/-- The peer's device at the other end. -/
def remoteOf (p k : Nat) : Int := routes.getD ((p * nRail + k) * 2 + 1) 0

/-- One round of the checking loop. -/
def checkRail (p k : Nat) (railHca : Nat → Nat → Int) : Except ConnectError (Nat → Nat → Int) :=
  let h := localOf routes nRail p k
  let r := remoteOf routes nRail p k
  if h < 0 ∨ h ≥ c.nHca ∨ r < 0 ∨ r ≥ roceMaxHcas then .error (.invalidRoute p k h r)
  else
    match (List.range k).find? fun j => railHca p j = h with
    | some j => .error (.sharedHca p j k h)
    | none => .ok (set2 railHca p k h)

def checkPeer (p : Nat) (railHca : Nat → Nat → Int) : Except ConnectError (Nat → Nat → Int) :=
  if p = c.rank then .ok railHca
  else applyAll (checkRail c routes nRail p) (List.range nRail) railHca

variable (modify : Nat → Nat → QpAttr → Bool) (all : List Blob)

/-- One round of the connecting loop. -/
def connectRail (p k : Nat) (s : Links) : Except ConnectError Links :=
  let peer := all.getD p default
  let h := (s.railHca p k).toNat
  let r := (remoteOf routes nRail p k).toNat
  let attr := connectQp c h r peer
  if modify h p attr then
    .ok { s with peerRkey := set2 s.peerRkey k p (peer.rkey r), qps := s.qps ++ [⟨h, p, attr⟩] }
  else .error (.modifyQp h p)

def connectPeer (p : Nat) (s : Links) : Except ConnectError Links :=
  if p = c.rank then .ok s
  else
    applyAll (connectRail c routes nRail modify all p) (List.range nRail)
      { s with peerAddr := fun q => if q = p then (all.getD p default).regionAddr else s.peerAddr q }

def roceConnect (s : Links) : Except ConnectError Links :=
  if all.length < c.world then .error .blobsTooSmall
  else if nRail < 1 ∨ nRail > roceMaxRails then .error (.railCount nRail)
  else do
    let railHca ← applyAll (checkPeer c routes nRail) (List.range c.world) s.railHca
    applyAll (connectPeer c routes nRail modify all) (List.range c.world)
      { s with railHca := railHca, nRail := nRail }

end

/-! ## `Proxy.connect` -/

/-- The routes of a rank as Python lists them: per peer, the links of its rails. -/
abbrev RouteTable := List (List (Int × Int))

/-- `ctypes.c_int32`. -/
def toInt32 (z : Int) : Int := z.bmod (2 ^ 32)

/-- What `Proxy.connect` appends to the table for one peer. -/
def flatLinks (rank rails peer : Nat) (links : List (Int × Int)) : List Int :=
  (List.range rails).flatMap fun k =>
    let link := if peer ≠ rank then links.getD k (0, 0) else (0, 0)
    [link.1, link.2]

/-- The loop over the peers, the first of which is `peer`. -/
def flattenFrom (rank rails : Nat) : Nat → RouteTable → Except ConnectError (List Int)
  | _, [] => .ok []
  | peer, links :: rest =>
    if peer ≠ rank ∧ links.length ≠ rails then .error (.unequalRails peer links.length rails)
    else do
      let flat ← flattenFrom rank rails (peer + 1) rest
      .ok (flatLinks rank rails peer links ++ flat)

/-- `max(len(r) for r in routes)`. -/
def railCount (routes : RouteTable) : Nat := (routes.map List.length).foldr max 0

/-- `Proxy.connect`; a blob that has not the size of a `roce_blob_t` is `none`. -/
def proxyConnect (c : Ctx) (modify : Nat → Nat → QpAttr → Bool) (s : Links)
    (blobs : List (Option Blob)) (routes : RouteTable) : Except ConnectError Links :=
  if blobs.length ≠ c.world ∨ blobs.any Option.isNone then .error .blobStruct
  else if routes.length ≠ c.world then .error .listEveryRank
  else do
    let rails := railCount routes
    let flat ← flattenFrom c.rank rails 0 routes
    roceConnect c (flat.map toInt32) rails modify (blobs.filterMap id) s

end LlmkubeRuntimes.Roce
