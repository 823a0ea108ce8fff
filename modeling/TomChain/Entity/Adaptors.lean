import Mathlib.Algebra.GroupWithZero.Nat
import TomChain.Entity.Flexbuffers
import TomChain.Entity.Msgpack

/-!
# Reading the msgpack form back

The `as` adaptors of `msgpack_adapter.hpp` and the arrays of `MSGPACK_DEFINE`; `none` is an
exception. Every `as` checks the number of entries of the map it is given and then looks its
fields up by name. A block is packed and read with its pointers as they are, so that a null
transaction or a null vote is a value like any other (`BlockPtrs`).
-/

namespace TomChain

open Std (ExtTreeMap)
open Decimal (Text)

/-- A `Block` whose transactions and votes may be null pointers. -/
structure BlockPtrs (G : Type) where
  header : BlockHeader
  txVec : List (Option Transaction)
  votes : ExtTreeMap ℕ (Option (BlockVote G))
  tssSig : Option (BLSSignature G)

variable {G D Bytes : Type}

def Block.toPtrs (b : Block G) : BlockPtrs G :=
  ⟨b.header, b.txVec.map some, b.votes.map fun _ vote => some vote, b.tssSig⟩

namespace Msgpack

/-! ## The adaptors -/

def asUInt64 : Msgpack G → Option ℕ
  | .uint n => some n
  | _ => none

/-- Strings; the bytes of a point are never read as one. -/
def asString : Msgpack G → Option Text
  | .str s => some s
  | _ => none

def asPoint : Msgpack G → Option G
  | .bin g => some g
  | _ => none

/-- `as<std::shared_ptr<T>>`: nil is a null pointer. -/
def asPtr {α : Type} (as : Msgpack G → Option α) : Msgpack G → Option (Option α)
  | .nil => some none
  | o => (as o).map some

/-- `o >> m` for a `std::map<std::string, msgpack::object>`: a repeated key is overwritten. -/
def convertStrMap : List (Msgpack G × Msgpack G) → ExtTreeMap Text (Msgpack G) →
    Option (ExtTreeMap Text (Msgpack G))
  | [], m => some m
  | (key, val) :: entries, m =>
    match asString key with
    | none => none
    | some key => convertStrMap entries (m.insert key val)

/-- The three lines every `as` starts with: a map, of the right size, read by name. -/
def asFields (size : ℕ) : Msgpack G → Option (ExtTreeMap Text (Msgpack G))
  | .map entries => if entries.length ≠ size then none else convertStrMap entries ∅
  | _ => none

/-- `m[key]`; a missing key gives a nil object. -/
def field (m : ExtTreeMap Text (Msgpack G)) (key : Text) : Msgpack G := (m[key]?).getD .nil

/-- Member `i` of a `MSGPACK_DEFINE` array; a shorter array leaves `init` in place. -/
def member (elems : List (Msgpack G)) (i : ℕ) (init : Option ℕ) : Option ℕ :=
  match elems[i]? with
  | none => init
  | some o => asUInt64 o

/-- The default constructor of a header sets its fields to zero. -/
def asHeader : Msgpack G → Option BlockHeader
  | .array elems => do
    let id ← member elems 0 (some 0)
    let baseId ← member elems 1 (some 0)
    let proposalTs ← member elems 2 (some 0)
    let distTs ← member elems 3 (some 0)
    let commitTs ← member elems 4 (some 0)
    let recvTs ← member elems 5 (some 0)
    some ⟨id, baseId, proposalTs, distTs, commitTs, recvTs⟩
  | _ => none

/-- The default constructor of a transaction sets nothing: there is no value for a member that
the array does not have. -/
def asTransaction : Msgpack G → Option Transaction
  | .array elems => do
    let id ← member elems 0 none
    let sender ← member elems 1 none
    let receiver ← member elems 2 none
    let value ← member elems 3 none
    let fee ← member elems 4 none
    some ⟨id, sender, receiver, value, fee⟩
  | _ => none

def asSigShare (o : Msgpack G) : Option (BLSSigShare G) := do
  let m ← asFields 5 o
  let sigShare ← asPoint (field m "sig_share".toList)
  let hint ← asString (field m "hint".toList)
  let signerIndex ← asUInt64 (field m "signer_index".toList)
  let t ← asUInt64 (field m "t".toList)
  let n ← asUInt64 (field m "n".toList)
  some ⟨sigShare, hint, signerIndex, t, n⟩

/-- `fromString` is the constructor of `BLSSignature` from the text form, `t` and `n`. -/
def asSignature (fromString : Text → ℕ → ℕ → Option (BLSSignature G)) (o : Msgpack G) :
    Option (BLSSignature G) := do
  let m ← asFields 3 o
  let sigStr ← asString (field m "sig_str".toList)
  let t ← asUInt64 (field m "t".toList)
  let n ← asUInt64 (field m "n".toList)
  fromString sigStr t n

def asVote (o : Msgpack G) : Option (BlockVote G) := do
  let m ← asFields 3 o
  let blockId ← asUInt64 (field m "block_id".toList)
  let sigShare ← asPtr asSigShare (field m "sig_share".toList)
  let voterId ← asUInt64 (field m "voter_id".toList)
  some ⟨blockId, voterId, sigShare⟩

/-- `as<std::vector<std::shared_ptr<Transaction>>>`. -/
def asTxVec : Msgpack G → Option (List (Option Transaction))
  | .array elems => elems.mapM (asPtr asTransaction)
  | _ => none

/-- The loop of `as<std::map<uint64_t, std::shared_ptr<BlockVote>>>`: the first entry of a key
stays. -/
def votesOfEntries : List (Msgpack G × Msgpack G) → ExtTreeMap ℕ (Option (BlockVote G)) →
    Option (ExtTreeMap ℕ (Option (BlockVote G)))
  | [], votes => some votes
  | (key, val) :: entries, votes =>
    match asUInt64 key, asPtr asVote val with
    | some key, some vote => votesOfEntries entries (votes.insertIfNew key vote)
    | _, _ => none

def asVotes : Msgpack G → Option (ExtTreeMap ℕ (Option (BlockVote G)))
  | .map entries => votesOfEntries entries ∅
  | _ => none

def asBlock (fromString : Text → ℕ → ℕ → Option (BLSSignature G)) (o : Msgpack G) :
    Option (BlockPtrs G) := do
  let m ← asFields 4 o
  let header ← asHeader (field m "header".toList)
  let txVec ← asTxVec (field m "tx_vec".toList)
  let votes ← asVotes (field m "votes".toList)
  let tssSig ← asPtr (asSignature fromString) (field m "tss_sig".toList)
  some ⟨header, txVec, votes, tssSig⟩

/-- `pack<Block>`, with the pointers as they are. -/
def packBlockPtrs (crypto : Crypto G D) (b : BlockPtrs G) : Msgpack G :=
  .map [(.str "header".toList, packHeader b.header),
    (.str "tx_vec".toList, .array (b.txVec.map (ofPtr packTransaction))),
    (.str "votes".toList, .map (b.votes.toList.map fun kv => (.uint kv.1, ofPtr packVote kv.2))),
    (.str "tss_sig".toList, ofPtr (packSignature crypto) b.tssSig)]

/-- A block without null pointers is packed as `packBlock` says. -/
theorem packBlock_eq (crypto : Crypto G D) (b : Block G) :
    packBlock crypto b = packBlockPtrs crypto b.toPtrs := by
  simp only [packBlock, packBlockPtrs, Block.toPtrs, List.map_map, ExtTreeMap.toList_map]
  rfl

/-! ## Field by field -/

theorem convertStrMap_ok (entries : List (Text × Msgpack G)) (m : ExtTreeMap Text (Msgpack G)) :
    convertStrMap (entries.map fun e => (.str e.1, e.2)) m =
      some (entries.foldl (fun m e => m.insert e.1 e.2) m) := by
  induction entries generalizing m with
  | nil => rfl
  | cons e entries ih => exact ih _

theorem getElem?_foldl_insert (entries : List (Text × Msgpack G)) (m : ExtTreeMap Text (Msgpack G))
    {key : Text} (h : key ∉ entries.map Prod.fst) :
    (entries.foldl (fun m e => m.insert e.1 e.2) m)[key]? = m[key]? := by
  induction entries generalizing m with
  | nil => rfl
  | cons e entries ih =>
    rw [List.map_cons, List.mem_cons, not_or] at h
    rw [List.foldl_cons, ih _ h.2, ExtTreeMap.getElem?_insert, if_neg]
    intro he
    exact h.1 (Std.LawfulEqCmp.eq_of_compare he).symm

theorem field_foldl_insert (entries : List (Text × Msgpack G)) (m : ExtTreeMap Text (Msgpack G))
    (hnd : (entries.map Prod.fst).Nodup) {e : Text × Msgpack G} (he : e ∈ entries) :
    field (entries.foldl (fun m e => m.insert e.1 e.2) m) e.1 = e.2 := by
  induction entries generalizing m with
  | nil => cases he
  | cons e' entries ih =>
    rw [List.map_cons, List.nodup_cons] at hnd
    rcases List.mem_cons.mp he with rfl | he
    · rw [field, List.foldl_cons, getElem?_foldl_insert _ _ hnd.1, ExtTreeMap.getElem?_insert_self]
      rfl
    · exact ih _ hnd.2 he

/-- A packed map of distinct field names is read back field by field. -/
theorem asFields_ok (size : ℕ) (entries : List (Text × Msgpack G)) (hlen : entries.length = size)
    (hnd : (entries.map Prod.fst).Nodup) :
    ∃ m, asFields size (.map (entries.map fun e => (.str e.1, e.2))) = some m ∧
      ∀ e ∈ entries, field m e.1 = e.2 := by
  refine ⟨_, ?_, fun e he => field_foldl_insert entries ∅ hnd he⟩
  rw [asFields, if_neg (by simpa using hlen), convertStrMap_ok]

theorem asPtr_ofPtr {α : Type} {as : Msgpack G → Option α} {pack : α → Msgpack G}
    (hnil : ∀ a, pack a ≠ .nil) (h : ∀ a, as (pack a) = some a) (p : Option α) :
    asPtr as (ofPtr pack p) = some p := by
  cases p with
  | none => rfl
  | some a =>
    show asPtr as (pack a) = some (some a)
    unfold asPtr
    split
    · rename_i he; exact absurd he (hnil a)
    · rw [h a]; rfl

theorem packTransaction_ne_nil (tx : Transaction) : packTransaction (G := G) tx ≠ .nil := nofun

theorem packSigShare_ne_nil (share : BLSSigShare G) : packSigShare share ≠ .nil := nofun

theorem packSignature_ne_nil (crypto : Crypto G D) (sig : BLSSignature G) :
    packSignature crypto sig ≠ .nil := nofun

theorem packVote_ne_nil (vote : BlockVote G) : packVote vote ≠ .nil := nofun

/-! ## Round trips -/

theorem asTransaction_pack (tx : Transaction) :
    asTransaction (packTransaction (G := G) tx) = some tx := rfl

theorem asHeader_pack (bh : BlockHeader) : asHeader (packHeader (G := G) bh) = some bh := rfl

theorem asSigShare_pack (share : BLSSigShare G) : asSigShare (packSigShare share) = some share := by
  have hnd : ["sig_share".toList, "hint".toList, "signer_index".toList, "t".toList,
      "n".toList].Nodup := by decide
  obtain ⟨m, hm, hf⟩ := asFields_ok 5 [("sig_share".toList, .bin share.sigShare),
    ("hint".toList, .str share.hint), ("signer_index".toList, .uint share.signerIndex),
    ("t".toList, .uint share.t), ("n".toList, .uint share.n)] rfl hnd
  have hm' : asFields 5 (packSigShare share) = some m := hm
  simp only [List.forall_mem_cons] at hf
  obtain ⟨h1, h2, h3, h4, h5, -⟩ := hf
  simp only [asSigShare, hm', h1, h2, h3, h4, h5, asPoint, asString, asUInt64,
    Option.bind_eq_bind, Option.bind_some]

theorem asSignature_pack {crypto : Crypto G D}
    {fromString : Text → ℕ → ℕ → Option (BLSSignature G)}
    (h : ∀ sig, fromString (crypto.sigToString sig) sig.t sig.n = some sig) (sig : BLSSignature G) :
    asSignature fromString (packSignature crypto sig) = some sig := by
  have hnd : ["sig_str".toList, "t".toList, "n".toList].Nodup := by decide
  obtain ⟨m, hm, hf⟩ := @asFields_ok G 3 [("sig_str".toList, .str (crypto.sigToString sig)),
    ("t".toList, .uint sig.t), ("n".toList, .uint sig.n)] rfl hnd
  have hm' : asFields 3 (packSignature crypto sig) = some m := hm
  simp only [List.forall_mem_cons] at hf
  obtain ⟨h1, h2, h3, -⟩ := hf
  simp only [asSignature, hm', h1, h2, h3, asString, asUInt64, h, Option.bind_eq_bind,
    Option.bind_some]

theorem asVote_pack (vote : BlockVote G) : asVote (packVote vote) = some vote := by
  have hnd : ["block_id".toList, "voter_id".toList, "sig_share".toList].Nodup := by decide
  obtain ⟨m, hm, hf⟩ := asFields_ok 3 [("block_id".toList, .uint vote.blockId),
    ("voter_id".toList, .uint vote.voterId), ("sig_share".toList, ofPtr packSigShare vote.sigShare)]
    rfl hnd
  have hm' : asFields 3 (packVote vote) = some m := hm
  simp only [List.forall_mem_cons] at hf
  obtain ⟨h1, h2, h3, -⟩ := hf
  have hptr : asPtr asSigShare (ofPtr packSigShare vote.sigShare) = some vote.sigShare :=
    asPtr_ofPtr packSigShare_ne_nil asSigShare_pack _
  simp only [asVote, hm', h1, h2, h3, asUInt64, hptr, Option.bind_eq_bind, Option.bind_some]

theorem asTxVec_pack (txVec : List (Option Transaction)) :
    asTxVec (.array (txVec.map (ofPtr (packTransaction (G := G))))) = some txVec := by
  have hptr : ∀ p, asPtr asTransaction (ofPtr (packTransaction (G := G)) p) = some p :=
    asPtr_ofPtr packTransaction_ne_nil asTransaction_pack
  show (txVec.map _).mapM _ = some txVec
  induction txVec with
  | nil => rfl
  | cons p txVec ih => simp [List.mapM_cons, hptr p, ih]

theorem votesOfEntries_ok (kvs : List (ℕ × Option (BlockVote G)))
    (votes : ExtTreeMap ℕ (Option (BlockVote G))) :
    votesOfEntries (kvs.map fun kv => (.uint kv.1, ofPtr packVote kv.2)) votes =
      some (kvs.foldl (fun m kv => m.insertIfNew kv.1 kv.2) votes) := by
  have hptr : ∀ p, asPtr asVote (ofPtr (packVote (G := G)) p) = some p :=
    asPtr_ofPtr packVote_ne_nil asVote_pack
  induction kvs generalizing votes with
  | nil => rfl
  | cons kv kvs ih =>
    simp only [List.map_cons, votesOfEntries, asUInt64, hptr]
    exact ih _

theorem foldl_toList {V : Type} (m : ExtTreeMap ℕ V) :
    m.toList.foldl (fun m kv => m.insertIfNew kv.1 kv.2) ∅ = m := by
  apply ExtTreeMap.ext_getElem?
  intro k
  apply Option.ext
  intro v
  rw [Flexbuffers.foldl_insertIfNew _ _ (Flexbuffers.toList_fst_nodup m) (by simp)]
  simp [ExtTreeMap.mem_toList_iff_getElem?_eq_some]

theorem asBlock_pack {crypto : Crypto G D} {fromString : Text → ℕ → ℕ → Option (BLSSignature G)}
    (h : ∀ sig, fromString (crypto.sigToString sig) sig.t sig.n = some sig) (b : BlockPtrs G) :
    asBlock fromString (packBlockPtrs crypto b) = some b := by
  have hnd : ["header".toList, "tx_vec".toList, "votes".toList, "tss_sig".toList].Nodup := by
    decide
  obtain ⟨m, hm, hf⟩ := asFields_ok 4 [("header".toList, packHeader b.header),
    ("tx_vec".toList, .array (b.txVec.map (ofPtr packTransaction))),
    ("votes".toList, .map (b.votes.toList.map fun kv => (.uint kv.1, ofPtr packVote kv.2))),
    ("tss_sig".toList, ofPtr (packSignature crypto) b.tssSig)] rfl hnd
  have hm' : asFields 4 (packBlockPtrs crypto b) = some m := hm
  simp only [List.forall_mem_cons] at hf
  obtain ⟨h1, h2, h3, h4, -⟩ := hf
  have hvotes : votesOfEntries (b.votes.toList.map fun kv => (.uint kv.1, ofPtr packVote kv.2)) ∅ =
      some b.votes := by
    rw [votesOfEntries_ok, foldl_toList]
  have hsig : asPtr (asSignature fromString) (ofPtr (packSignature crypto) b.tssSig) =
      some b.tssSig := asPtr_ofPtr (packSignature_ne_nil crypto) (asSignature_pack h) _
  simp only [asBlock, hm', h1, h2, h3, h4, asHeader_pack, asTxVec_pack, asVotes, hvotes, hsig,
    Option.bind_eq_bind, Option.bind_some]

/-! ## The packer as a stream

What the packer writes for a value, in the order of its calls: the size of an array or a map
comes before its elements. `unpackStream` reads the stream back. -/

inductive Token (G : Type) where
  | nil
  | uint (n : ℕ)
  | str (s : Text)
  | bin (g : G)
  | array (size : ℕ)
  | map (size : ℕ)

mutual

def tokens : Msgpack G → List (Token G)
  | .nil => [.nil]
  | .uint n => [.uint n]
  | .str s => [.str s]
  | .bin g => [.bin g]
  | .array elems => .array elems.length :: arrayTokens elems
  | .map entries => .map entries.length :: mapTokens entries

def arrayTokens : List (Msgpack G) → List (Token G)
  | [] => []
  | o :: elems => tokens o ++ arrayTokens elems

def mapTokens : List (Msgpack G × Msgpack G) → List (Token G)
  | [] => []
  | (key, val) :: entries => tokens key ++ tokens val ++ mapTokens entries

end

/-- Read `n` things one after the other. -/
def readN {α τ : Type} (read : List τ → Option (α × List τ)) : ℕ → List τ → Option (List α × List τ)
  | 0, ts => some ([], ts)
  | n + 1, ts => do
    let (a, ts) ← read ts
    let (as, ts) ← readN read n ts
    some (a :: as, ts)

/-- The value at the front of a stream and what follows it. A value inside another one takes a
unit of the fuel. -/
def read : ℕ → List (Token G) → Option (Msgpack G × List (Token G))
  | 0, _ => none
  | _ + 1, [] => none
  | _ + 1, .nil :: ts => some (.nil, ts)
  | _ + 1, .uint n :: ts => some (.uint n, ts)
  | _ + 1, .str s :: ts => some (.str s, ts)
  | _ + 1, .bin g :: ts => some (.bin g, ts)
  | fuel + 1, .array size :: ts => (readN (read fuel) size ts).map fun r => (.array r.1, r.2)
  | fuel + 1, .map size :: ts =>
    let pair := fun ts => do
      let (key, ts) ← read fuel ts
      let (val, ts) ← read fuel ts
      some ((key, val), ts)
    (readN pair size ts).map fun r => (.map r.1, r.2)

def unpackStream (ts : List (Token G)) : Option (Msgpack G) := (read ts.length ts).map Prod.fst

mutual

theorem read_tokens : ∀ (o : Msgpack G) (fuel : ℕ) (ts : List (Token G)),
    (tokens o).length ≤ fuel → read fuel (tokens o ++ ts) = some (o, ts)
  | o, 0, ts, h => by cases o <;> simp [tokens] at h
  | .nil, fuel + 1, ts, _ | .uint _, fuel + 1, ts, _ | .str _, fuel + 1, ts, _
  | .bin _, fuel + 1, ts, _ => rfl
  | .array elems, fuel + 1, ts, h => by
    simp only [tokens, List.length_cons, Nat.add_le_add_iff_right] at h
    simp only [tokens, List.cons_append, read, readN_arrayTokens elems fuel ts h, Option.map_some]
  | .map entries, fuel + 1, ts, h => by
    simp only [tokens, List.length_cons, Nat.add_le_add_iff_right] at h
    simp only [tokens, List.cons_append, read, readN_mapTokens entries fuel ts h, Option.map_some]

theorem readN_arrayTokens : ∀ (elems : List (Msgpack G)) (fuel : ℕ) (ts : List (Token G)),
    (arrayTokens elems).length ≤ fuel →
      readN (read fuel) elems.length (arrayTokens elems ++ ts) = some (elems, ts)
  | [], _, _, _ => rfl
  | o :: elems, fuel, ts, h => by
    simp only [arrayTokens, List.length_append] at h
    have h1 := read_tokens o fuel (arrayTokens elems ++ ts) (by omega)
    have h2 := readN_arrayTokens elems fuel ts (by omega)
    simp only [arrayTokens, List.append_assoc, List.length_cons, readN, h1, h2,
      Option.bind_eq_bind, Option.bind_some]

theorem readN_mapTokens : ∀ (entries : List (Msgpack G × Msgpack G)) (fuel : ℕ)
    (ts : List (Token G)), (mapTokens entries).length ≤ fuel →
      readN (fun ts => do
        let (key, ts) ← read fuel ts
        let (val, ts) ← read fuel ts
        some ((key, val), ts)) entries.length (mapTokens entries ++ ts) = some (entries, ts)
  | [], _, _, _ => rfl
  | (key, val) :: entries, fuel, ts, h => by
    simp only [mapTokens, List.length_append] at h
    have h1 := read_tokens key fuel (tokens val ++ (mapTokens entries ++ ts)) (by omega)
    have h2 := read_tokens val fuel (mapTokens entries ++ ts) (by omega)
    have h3 := readN_mapTokens entries fuel ts (by omega)
    simp only [Option.bind_eq_bind] at h3
    simp only [mapTokens, List.append_assoc, List.length_cons, readN, h1, h2, h3,
      Option.bind_eq_bind, Option.bind_some]

end

theorem unpackStream_tokens (o : Msgpack G) : unpackStream (tokens o) = some o := by
  have h := read_tokens o (tokens o).length [] le_rfl
  rw [List.append_nil] at h
  rw [unpackStream, h]
  rfl

end Msgpack

/-! ## The hashed bytes -/

theorem Block.toPtrs_injective : Function.Injective (Block.toPtrs (G := G)) := by
  rintro ⟨header, txVec, votes, tssSig⟩ ⟨header', txVec', votes', tssSig'⟩ h
  simp only [Block.toPtrs, BlockPtrs.mk.injEq] at h
  obtain ⟨rfl, htx, hvotes, rfl⟩ := h
  have htx' : txVec = txVec' := (List.map_injective_iff.mpr (Option.some_injective _)) htx
  have hvotes' : votes = votes' := by
    apply ExtTreeMap.ext_getElem?
    intro k
    have hk := congrArg (fun m : ExtTreeMap ℕ (Option (BlockVote G)) => m[k]?) hvotes
    simp only [ExtTreeMap.getElem?_map] at hk
    exact Option.map_injective (Option.some_injective _) hk
  rw [htx', hvotes']

/-- The string `ss_str` that `get_sha256` hashes; `write` is the byte writer. -/
def BlockPtrs.ssStr (write : Msgpack G → Bytes) (crypto : Crypto G D) (b : BlockPtrs G) : Bytes :=
  write (Msgpack.packBlockPtrs crypto b)

/-- With a writer that can be read back and signatures that their text form determines, packing
loses nothing, and so different blocks are hashed from different strings. -/
theorem Msgpack.packed_faithful (crypto : Crypto G D)
    (fromString : Text → ℕ → ℕ → Option (BLSSignature G)) (write : Msgpack G → Bytes)
    (unpack : Bytes → Option (Msgpack G)) (hwire : ∀ o, unpack (write o) = some o)
    (hsig : ∀ sig, fromString (crypto.sigToString sig) sig.t sig.n = some sig) :
    (∀ b, (unpack (write (packBlockPtrs crypto b))).bind (asBlock fromString) = some b) ∧
      (∀ vote, (unpack (write (packVote vote))).bind asVote = some vote) ∧
      (∀ share, (unpack (write (packSigShare share))).bind asSigShare = some share) ∧
      (∀ b b' : BlockPtrs G, b ≠ b' → b.ssStr write crypto ≠ b'.ssStr write crypto) ∧
      ∀ b b' : Block G, b ≠ b' → write (packBlock crypto b) ≠ write (packBlock crypto b') := by
  have hblock : ∀ b, (unpack (write (packBlockPtrs crypto b))).bind (asBlock fromString) = some b := by
    intro b
    rw [hwire, Option.bind_some, asBlock_pack hsig]
  have hinj : ∀ b b' : BlockPtrs G, b ≠ b' → b.ssStr write crypto ≠ b'.ssStr write crypto := by
    intro b b' hne he
    have h := hblock b
    rw [show write (packBlockPtrs crypto b) = write (packBlockPtrs crypto b') from he,
      hblock b'] at h
    exact hne (Option.some.inj h).symm
  refine ⟨hblock, fun vote => ?_, fun share => ?_, hinj, fun b b' hne => ?_⟩
  · rw [hwire, Option.bind_some, asVote_pack]
  · rw [hwire, Option.bind_some, asSigShare_pack]
  · rw [packBlock_eq, packBlock_eq]
    exact hinj _ _ fun he => hne (Block.toPtrs_injective he)

/-- A point as a number, a signature as its point in decimal, a colon and the hint. -/
def Crypto.decimal : Crypto ℕ (List (Msgpack.Token ℕ)) where
  sha256 := Msgpack.tokens
  sign := fun signer _ => signer
  hint := fun _ => []
  sigToString := fun sig => Decimal.toText sig.sig ++ ':' :: sig.hint
  merge := fun shares => ⟨(shares.map (·.sigShare)).sum, [], shares.length, shares.length⟩

def decimalFromString (text : Text) (t n : ℕ) : Option (BLSSignature ℕ) :=
  (Decimal.leadingNat text).map fun g => ⟨g, (text.dropWhile Char.isDigit).drop 1, t, n⟩

theorem decimalFromString_toString (sig : BLSSignature ℕ) :
    decimalFromString (Crypto.decimal.sigToString sig) sig.t sig.n = some sig := by
  have hdig := Decimal.toText_isDigit sig.sig
  have htake : (Crypto.decimal.sigToString sig).takeWhile Char.isDigit =
      (Decimal.toText sig.sig).takeWhile Char.isDigit := by
    rw [List.takeWhile_eq_self_iff.mpr hdig]
    show (Decimal.toText sig.sig ++ ':' :: sig.hint).takeWhile _ = _
    rw [List.takeWhile_append_of_pos hdig]
    simp
  have hdrop : (Crypto.decimal.sigToString sig).dropWhile Char.isDigit = ':' :: sig.hint := by
    show (Decimal.toText sig.sig ++ ':' :: sig.hint).dropWhile _ = _
    rw [List.dropWhile_append_of_pos hdig]
    simp
  have hnat : Decimal.leadingNat (Crypto.decimal.sigToString sig) = some sig.sig := by
    rw [Decimal.leadingNat, htake, ← Decimal.leadingNat, Decimal.leadingNat_toText]
  simp [decimalFromString, hnat, hdrop]

/-- Client 1's vote on a block with one transaction and a merged signature; the same with a null
share and with the transaction and the vote null. -/
theorem Msgpack.packed_faithful_decimal :
    let share : BLSSigShare ℕ := ⟨7, "ab".toList, 1, 2, 2⟩
    let b (tx : Option Transaction) (vote : Option (BlockVote ℕ)) : BlockPtrs ℕ :=
      ⟨⟨5, 6, 7, 8, 9, 10⟩, [tx], (∅ : ExtTreeMap ℕ _).insert 1 vote, some ⟨3, "ab".toList, 2, 2⟩⟩
    ∀ x ∈ [b (some ⟨1, 2, 3, 4, 5⟩) (some ⟨5, 1, some share⟩), b none (some ⟨5, 1, none⟩), b none none],
      (unpackStream (x.ssStr tokens Crypto.decimal)).bind (asBlock decimalFromString) = some x := by
  intro share b x _
  exact (packed_faithful Crypto.decimal decimalFromString tokens unpackStream unpackStream_tokens
    decimalFromString_toString).1 x

end TomChain
