import TomChain.Server.State

/-!
# The client

`TcClient` with its pull thread (`PullPendingBlocks` on both stubs, then `GetBlocks` on both)
and its vote thread. The replay of the transactions against the client's own database (`Replay`)
touches nothing of the state here; its buffers have room for 2000 transactions, and a longer block
ends the thread with an exception.
-/

namespace TomChain

open Std (ExtTreeMap)
open Flexbuffers (Flex toBytes fromBytes headerToBytes headerFromBytes)

inductive PullStage where
  | pull0
  | pull1
  | get0
  | get1
  deriving DecidableEq, Repr

inductive PullPc where
  | ready (stage : PullStage)
  | wait (stage : PullStage)
  deriving DecidableEq

/-- The vote thread: waiting for a block, or with a request for the stubs in `stubs`. -/
inductive VotePc (G : Type) where
  | idle
  | send (request : Flex G) (stubs : List ℕ)
  | wait (request : Flex G) (stubs : List ℕ)

structure Client (G : Type) where
  pendingBlkhdr : ExtTreeMap ℕ BlockHeader
  pendingBlks : List (Block G)
  pull : PullPc
  vote : VotePc G

inductive ClientAction where
  | pull (order : List ℕ)
  | votePop
  | voteSend

variable {G D : Type}

/-- `server_select` and `shadow_server_select` of `main`: the servers behind the two stubs. -/
def stubServer (serverCount clientId stub : ℕ) : ℕ :=
  let serverSelect := (clientId - 1) % serverCount + 1
  let shadowServerSelect := (clientId - 1) % serverCount + 2
  if stub = 0 then serverSelect
  else if shadowServerSelect > serverCount then 1 else shadowServerSelect

theorem stubServer_range {serverCount : ℕ} (h : 1 ≤ serverCount) (c stub : ℕ) :
    1 ≤ stubServer serverCount c stub ∧ stubServer serverCount c stub ≤ serverCount := by
  have hmod := Nat.mod_lt (c - 1) h
  unfold stubServer
  dsimp only
  split
  · omega
  · split <;> omega

def PullStage.stub : PullStage → ℕ
  | .pull0 | .get0 => 0
  | .pull1 | .get1 => 1

def PullStage.next : PullStage → PullStage
  | .pull0 => .pull1
  | .pull1 => .get0
  | .get0 => .get1
  | .get1 => .pull0

/-- The vote of client `clientId` on a block it received: the digest is taken over the whole
block as received. -/
def castVote (crypto : Crypto G D) (clientCount clientId : ℕ) (block : Block G) : BlockVote G :=
  { blockId := block.header.id
    voterId := clientId
    sigShare := some
      { sigShare := crypto.sign clientId (block.getSha256 crypto)
        hint := crypto.hint (block.getSha256 crypto)
        signerIndex := clientId
        t := clientCount
        n := clientCount } }

/-- The copy that is sent back: without transactions, with the vote added. -/
def votedBlock (crypto : Crypto G D) (clientCount clientId : ℕ) (block : Block G) : Block G :=
  { block with txVec := [] }.insertVote clientId (castVote crypto clientCount clientId block)

namespace Client

def init : Client G := ⟨∅, [], .ready .pull0, .idle⟩

/-- Room in `sender_strvec` and its three companions. -/
def strvecSize : ℕ := 2000

/-- The state after the step and the call it makes, with its target. `order` is the order in
which the hash map of headers is iterated. -/
def act (cfg : Config) (crypto : Crypto G D) (clientId : ℕ) (cl : Client G) :
    ClientAction → Option (Client G × Option (ℕ × Rpc G))
  | .pull order =>
    match cl.pull with
    | .ready stage =>
      match stage with
      | .pull0 | .pull1 =>
        some ({ cl with pull := .wait stage },
          some (stubServer cfg.serverCount clientId stage.stub, .pullPendingBlocks clientId none []))
      | .get0 | .get1 =>
        if order.isPerm cl.pendingBlkhdr.keys then
          some ({ cl with pull := .wait stage },
            some (stubServer cfg.serverCount clientId stage.stub,
              .getBlocks ((order.filterMap (cl.pendingBlkhdr[·]?)).map headerToBytes) []))
        else none
    | .wait _ => none
  | .votePop =>
    match cl.vote, cl.pendingBlks with
    | .idle, block :: q =>
      if block.txVec.length ≤ strvecSize then
        some ({ cl with
          pendingBlks := q
          vote := .send (toBytes (votedBlock crypto cfg.clientCount clientId block)) [0, 1] }, none)
      else none
    | _, _ => none
  | .voteSend =>
    match cl.vote with
    | .send request (stub :: stubs) =>
      some ({ cl with vote := .wait request stubs },
        some (stubServer cfg.serverCount clientId stub, .voteBlocks clientId [request] none))
    | _ => none

/-- `PullPendingBlocks` after the call: keep the headers. -/
def receiveHeaders (cl : Client G) (pbHdrs : List (Flex G)) : Client G :=
  let insert := fun (m : ExtTreeMap ℕ BlockHeader) (hdr : Flex G) =>
    m.insertIfNew (headerFromBytes hdr).id (headerFromBytes hdr)
  { cl with pendingBlkhdr := pbHdrs.foldl insert cl.pendingBlkhdr }

/-- `GetBlocks` after the call: queue the blocks and drop their headers. `none` when a block
does not decode; nothing catches the exception. -/
def receiveBlocks (cl : Client G) : List (Flex G) → Option (Client G)
  | [] => some cl
  | item :: rest =>
    match fromBytes item with
    | none => none
    | some block =>
      ({ cl with
          pendingBlks := cl.pendingBlks ++ [block]
          pendingBlkhdr := cl.pendingBlkhdr.erase block.header.id } : Client G).receiveBlocks rest

/-- The pull thread after its call: a failed call leaves an empty response. -/
def resumePull (cl : Client G) (response : Option (Rpc G)) : Option (Client G) :=
  match cl.pull with
  | .wait stage =>
    let cl := { cl with pull := .ready stage.next }
    match response with
    | some (.pullPendingBlocks _ _ pbHdrs) => some (cl.receiveHeaders pbHdrs)
    | some (.getBlocks _ pb) => cl.receiveBlocks pb
    | _ => some cl
  | .ready _ => none

/-- The vote thread after its call, whatever the status: the next stub, or the next block. -/
def resumeVote (cl : Client G) : Option (Client G) :=
  match cl.vote with
  | .wait _ [] => some { cl with vote := .idle }
  | .wait request stubs => some { cl with vote := .send request stubs }
  | _ => none

inductive Acts (cfg : Config) (crypto : Crypto G D) (clientId : ℕ) (cl : Client G) :
    ClientAction → Client G → Option (ℕ × Rpc G) → Prop
  | pull (order : List ℕ) (stage : PullStage) : cl.pull = .ready stage →
      Acts cfg crypto clientId cl (.pull order) { cl with pull := .wait stage }
        (some (stubServer cfg.serverCount clientId stage.stub, .pullPendingBlocks clientId none []))
  | get (order : List ℕ) (stage : PullStage) : cl.pull = .ready stage →
      Acts cfg crypto clientId cl (.pull order) { cl with pull := .wait stage }
        (some (stubServer cfg.serverCount clientId stage.stub,
          .getBlocks ((order.filterMap (cl.pendingBlkhdr[·]?)).map headerToBytes) []))
  | votePop (block : Block G) (q : List (Block G)) : cl.vote = .idle → cl.pendingBlks = block :: q →
      Acts cfg crypto clientId cl .votePop { cl with
        pendingBlks := q
        vote := .send (toBytes (votedBlock crypto cfg.clientCount clientId block)) [0, 1] } none
  | voteSend (request : Flex G) (stub : ℕ) (stubs : List ℕ) : cl.vote = .send request (stub :: stubs) →
      Acts cfg crypto clientId cl .voteSend { cl with vote := .wait request stubs }
        (some (stubServer cfg.serverCount clientId stub, .voteBlocks clientId [request] none))

theorem acts_of_act {cfg : Config} {crypto : Crypto G D} {clientId : ℕ} {cl cl' : Client G}
    {a : ClientAction} {out : Option (ℕ × Rpc G)}
    (h : cl.act cfg crypto clientId a = some (cl', out)) : Acts cfg crypto clientId cl a cl' out := by
  unfold act at h
  split at h
  · split at h
    · rename_i hpc
      split at h
      · cases h; exact .pull _ _ hpc
      · cases h; exact .pull _ _ hpc
      · split at h
        · cases h; exact .get _ _ hpc
        · cases h
      · split at h
        · cases h; exact .get _ _ hpc
        · cases h
    · cases h
  · split at h
    · rename_i hpc hq
      split at h
      · cases h; exact .votePop _ _ hpc hq
      · cases h
    · cases h
  · split at h
    · rename_i hpc; cases h; exact .voteSend _ _ _ hpc
    · cases h

end Client

end TomChain
