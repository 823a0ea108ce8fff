import TomChain.Entity.Block

/-!
# The msgpack form of a block and its digest

`Block::get_sha256` hashes the whole block as msgpack writes it. The `pack`
adaptors of `msgpack_adapter.hpp` are modelled up to msgpack's own value type; the
byte writer together with SHA-256 is one function of `Crypto`.
-/

namespace TomChain

open Decimal (Text)

/-- A msgpack value; `bin` is the binary string of the bytes of a curve point. -/
inductive Msgpack (G : Type) where
  | nil
  | uint (n : ℕ)
  | str (s : Text)
  | bin (g : G)
  | array (elems : List (Msgpack G))
  | map (entries : List (Msgpack G × Msgpack G))

/-- What the program calls in picosha2, msgpack's writer and libBLS. `sign c d` is the
point that client `c` computes for digest `d` with the secret share it registered for,
`merge` is `BLSSigShareSet::merge` on the collected shares. -/
structure Crypto (G D : Type) where
  sha256 : Msgpack G → D
  sign : ℕ → D → G
  hint : D → Text
  sigToString : BLSSignature G → Text
  merge : List (BLSSigShare G) → BLSSignature G

namespace Msgpack

variable {G D : Type}

/-- A null `std::shared_ptr` is packed as nil. -/
def ofPtr {α : Type} (pack : α → Msgpack G) : Option α → Msgpack G
  | none => .nil
  | some a => pack a

def packTransaction (tx : Transaction) : Msgpack G :=
  .array [.uint tx.id, .uint tx.sender, .uint tx.receiver, .uint tx.value, .uint tx.fee]

def packHeader (bh : BlockHeader) : Msgpack G :=
  .array [.uint bh.id, .uint bh.baseId, .uint bh.proposalTs, .uint bh.distTs,
    .uint bh.commitTs, .uint bh.recvTs]

def packSigShare (share : BLSSigShare G) : Msgpack G :=
  .map [(.str "sig_share".toList, .bin share.sigShare), (.str "hint".toList, .str share.hint),
    (.str "signer_index".toList, .uint share.signerIndex), (.str "t".toList, .uint share.t),
    (.str "n".toList, .uint share.n)]

def packSignature (crypto : Crypto G D) (sig : BLSSignature G) : Msgpack G :=
  .map [(.str "sig_str".toList, .str (crypto.sigToString sig)), (.str "t".toList, .uint sig.t),
    (.str "n".toList, .uint sig.n)]

def packVote (vote : BlockVote G) : Msgpack G :=
  .map [(.str "block_id".toList, .uint vote.blockId), (.str "voter_id".toList, .uint vote.voterId),
    (.str "sig_share".toList, ofPtr packSigShare vote.sigShare)]

def packBlock (crypto : Crypto G D) (b : Block G) : Msgpack G :=
  .map [(.str "header".toList, packHeader b.header),
    (.str "tx_vec".toList, .array (b.txVec.map packTransaction)),
    (.str "votes".toList, .map (b.votes.toList.map fun kv => (.uint kv.1, packVote kv.2))),
    (.str "tss_sig".toList, ofPtr (packSignature crypto) b.tssSig)]

end Msgpack

def Block.getSha256 {G D : Type} (crypto : Crypto G D) (b : Block G) : D :=
  crypto.sha256 (Msgpack.packBlock crypto b)

/-! ## A symbolic instance -/

/-- Points as terms: a share names its signer and the hashed message, a merged signature its
shares. -/
inductive Point where
  | share (signer : ℕ) (message : Msgpack Point)
  | merged (shares : List Point)

/-- The free instance of the library calls; nothing collides. -/
def Crypto.symbolic : Crypto Point (Msgpack Point) where
  sha256 := id
  sign := .share
  hint := fun _ => []
  sigToString := fun _ => []
  merge := fun shares => ⟨.merged (shares.map (·.sigShare)), [], shares.length, shares.length⟩

end TomChain
