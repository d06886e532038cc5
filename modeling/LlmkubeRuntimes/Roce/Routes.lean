import Mathlib.Algebra.GroupWithZero.Nat
import Mathlib.Data.List.Lex
import Mathlib.Data.List.Sort
import Mathlib.Data.Prod.Lex

/-!
# The RoCE route planner

Every rank runs `planRoutes` over the same list of endpoints: rail by rail, it
picks the pair of a local and a remote device that carries the rail to each
peer.

* `indexPairingValid`: device `h` can be paired with device `h` everywhere;
* `candidates`: the verified links of two ranks and the same-index pairs that
  cannot be checked, sorted by key, local index and remote index;
* `bestMatching`: among all combinations of candidates, the first with the
  smallest score whose devices are distinct at both ends.
-/

namespace LlmkubeRuntimes.Roce

def maxRails : Nat := 2

/-! ## Endpoints -/

/-- `ipaddress.IPv4Interface`. -/
structure IPv4Interface where
  ip : Nat
  prefixlen : Nat
  ip_lt : ip < 2 ^ 32
  prefixlen_le : prefixlen ≤ 32
  deriving DecidableEq, Repr

structure IPv4Network where
  networkAddress : Nat
  prefixlen : Nat
  deriving DecidableEq, Repr

def IPv4Interface.network (i : IPv4Interface) : IPv4Network :=
  ⟨i.ip / 2 ^ (32 - i.prefixlen) * 2 ^ (32 - i.prefixlen), i.prefixlen⟩

/-- One RDMA device; `ipv4` is its address when its GID is IPv4-mapped. -/
structure Endpoint where
  name : String
  ipv4 : Option IPv4Interface
  deriving DecidableEq, Repr

abbrev Endpoints := List (List Endpoint)

def sameLink (a b : Endpoint) : Bool :=
  match a.ipv4, b.ipv4 with
  | some x, some y => x.network = y.network
  | _, _ => false

/-- Device `h` of rank `a`. -/
def device (endpoints : Endpoints) (a h : Nat) : Option Endpoint :=
  (endpoints[a]?).bind fun devices => devices[h]?

/-- The test of `indexPairingValid` on one pair of devices. -/
def pairable (x y : Option Endpoint) : Bool :=
  match x.bind Endpoint.ipv4, y.bind Endpoint.ipv4 with
  | some x, some y => x.network = y.network
  | _, _ => true

def indexPairingValid (endpoints : Endpoints) (rails : Nat) : Bool :=
  if endpoints.any fun devices => devices.length < rails then false
  else
    (List.range endpoints.length).all fun a =>
      (List.range' (a + 1) (endpoints.length - (a + 1))).all fun b =>
        (List.range rails).all fun h => pairable (device endpoints a h) (device endpoints b h)

/-! ## Matchings -/

/-- The sort key of a candidate, compared field by field. -/
abbrev Key := ℕ ×ₗ ℕ ×ₗ ℕ ×ₗ ℕ

def Key.mk (kind x y z : Nat) : Key := toLex (kind, toLex (x, toLex (y, z)))

/-- The first field of a key: 0 for a verified link, 1 for an unverifiable pair. -/
def Key.kind (k : Key) : Nat := (ofLex k).1

/-- A candidate `(key, l, r)`. -/
structure Link where
  key : Key
  l : Nat
  r : Nat
  deriving DecidableEq

/-- The tuple order on candidates. -/
def Link.le (a b : Link) : Prop := toLex (a.key, toLex (a.l, a.r)) ≤ toLex (b.key, toLex (b.l, b.r))

instance : DecidableRel Link.le := fun a b => by unfold Link.le; infer_instance

/-- `itertools.combinations`. -/
def combinations {α : Type*} : Nat → List α → List (List α)
  | 0, _ => [[]]
  | _ + 1, [] => []
  | k + 1, x :: xs => (combinations k xs).map (x :: ·) ++ combinations (k + 1) xs

abbrev Score := ℕ ×ₗ List Key

def score (combo : List Link) : Score :=
  toLex ((combo.map fun c => c.key.kind).sum, combo.map Link.key)

/-- The loop body of `_best_matching`. -/
def better (rails : Nat) (best : Option (Score × List Link)) (combo : List Link) :
    Option (Score × List Link) :=
  if (combo.map Link.l).dedup.length < rails ∨ (combo.map Link.r).dedup.length < rails then best
  else
    match best with
    | none => some (score combo, combo)
    | some b => if score combo < b.1 then some (score combo, combo) else best

def bestMatching (candidates : List Link) (rails : Nat) : Option (List (Nat × Nat)) :=
  ((combinations rails candidates).foldl (better rails) none).map fun best =>
    best.2.map fun c => (c.l, c.r)

/-! ## The planner -/

/-- The key of the link between two endpoints on one network. -/
def linkKey (a b : Endpoint) : Option Key := do
  let x ← a.ipv4
  let y ← b.ipv4
  if sameLink a b then
    some (Key.mk 0 x.network.networkAddress (min x.ip y.ip) (max x.ip y.ip))
  else none

def verified (loc rem : List Endpoint) : List Link :=
  (List.range loc.length).flatMap fun l => (List.range rem.length).filterMap fun r => do
    let k ← linkKey (← loc[l]?) (← rem[r]?)
    some ⟨k, l, r⟩

/-- A pair of devices of which one has no IPv4 GID. -/
def uncheckable (x y : Endpoint) : Bool := x.ipv4.isNone || y.ipv4.isNone

def unverifiable (loc rem : List Endpoint) : List Link :=
  (List.range (min loc.length rem.length)).filterMap fun h => do
    if uncheckable (← loc[h]?) (← rem[h]?) then some ⟨Key.mk 1 h 0 0, h, h⟩ else none

def candidates (loc rem : List Endpoint) : List Link :=
  (verified loc rem ++ unverifiable loc rem).insertionSort Link.le

/-- What `plan_routes` raises; `unlinked` carries the parts of its message. -/
inductive PlanError where
  /-- `rails must be 1..2, got {rails}` -/
  | badRails (rails : Nat)
  /-- `endpoints[rank]` is out of range. -/
  | badRank
  /-- `rank {rank}: {reach} of {rails} RoCE rails have a link to rank {peer}; ...` -/
  | unlinked (rank reach rails peer : Nat) (loc rem : List Endpoint)
  deriving DecidableEq, Repr

abbrev Route := List (Nat × Nat)

/-- The number of rails that have a link, for the message. -/
def reach (candidates : List Link) (rails : Nat) : Nat :=
  ((List.range' 1 (rails - 1)).reverse.find? fun k =>
    ((bestMatching candidates k).getD []) ≠ []).getD 0

/-- The route of `rank` to `peer` by subnet. -/
def routeTo (rank rails : Nat) (loc : List Endpoint) (peer : Nat) (rem : List Endpoint) :
    Except PlanError Route :=
  if peer = rank then .ok []
  else
    match bestMatching (candidates loc rem) rails with
    | none => .error (.unlinked rank (reach (candidates loc rem) rails) rails peer loc rem)
    | some chosen => .ok chosen

/-- The loop over the peers, the first of which is `peer`. -/
def routesFrom (rank rails : Nat) (loc : List Endpoint) :
    Nat → Endpoints → Except PlanError (List Route)
  | _, [] => .ok []
  | peer, rem :: rest => do
    let route ← routeTo rank rails loc peer rem
    let routes ← routesFrom rank rails loc (peer + 1) rest
    .ok (route :: routes)

/-- The route to every peer when device `h` carries rail `h`. -/
def indexRoutes (world rank rails : Nat) : List Route :=
  (List.range world).map fun p => if p = rank then [] else (List.range rails).map fun h => (h, h)

def planRoutes (endpoints : Endpoints) (rank rails : Nat) : Except PlanError (List Route) :=
  if ¬ (1 ≤ rails ∧ rails ≤ maxRails) then .error (.badRails rails)
  else if indexPairingValid endpoints rails then .ok (indexRoutes endpoints.length rank rails)
  else
    match endpoints[rank]? with
    | none => .error .badRank
    | some loc => routesFrom rank rails loc 0 endpoints

end LlmkubeRuntimes.Roce
