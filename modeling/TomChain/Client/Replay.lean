import TomChain.Client.Client
import TomChain.Server.Threads

/-!
# The replay of transactions

Before a client votes on a block, it looks the accounts of each transaction up in its database and
writes their balances back. The keys are printed into strings that `TcClient::init` makes once, and
the balances are read into strings that are kept from block to block. RocksDB is a parameter: what is
put is what is read back, and a lookup that finds nothing leaves its result as it was.
-/

namespace TomChain

open Decimal (Text toText)

structure Database (σ : Type) where
  get : σ → Text → Option Text
  put : σ → Text → Text → σ
  get_put : ∀ db k v k', get (put db k v) k' = if k = k' then some v else get db k'

def Database.map : Database (Std.ExtTreeMap Text Text) where
  get m k := m[k]?
  put m k v := m.insert k v
  get_put m k v k' := by
    rw [Std.ExtTreeMap.getElem?_insert]
    simp

/-- `%ld`: the argument is read as a signed number of 64 bits. -/
def printLong (n : ℕ) : Text :=
  if n % 2 ^ 64 < 2 ^ 63 then toText (n % 2 ^ 64) else '-' :: toText (2 ^ 64 - n % 2 ^ 64)

/-- `snprintf(str.data(), str.size(), ...)`: at most `size - 1` characters are written and a NUL after
them. The size of the string stays what it is. -/
def snprintf (str text : Text) : Text :=
  match str.length with
  | 0 => str
  | n + 1 => text.take n ++ Char.ofNat 0 :: str.drop ((text.take n).length + 1)

namespace Client

structure Replay (σ : Type) where
  db : σ
  senderStr : List Text
  receiverStr : List Text
  senderBal : List Text
  receiverBal : List Text
  -- History, not in the code: the keys of the sender and the receiver that were read and written.
  touched : List (Text × Text)

variable {σ : Type} (D : Database σ)

/-- The accounts that `init` makes when it clears the database. -/
def populate (accountCount : ℕ) (db : σ) : σ :=
  (List.range accountCount).foldl (fun db i => D.put db (toText i) (toText i)) db

/-- After `init`. `reserve` does not change the size of a string. -/
def Replay.init (db : σ) : Replay σ :=
  ⟨db, .replicate strvecSize [], .replicate strvecSize [], .replicate strvecSize [],
    .replicate strvecSize [], []⟩

/-- The first loop; `none` when `at` throws. -/
def printKeys (r : Replay σ) : ℕ → List Transaction → Option (Replay σ)
  | _, [] => some r
  | i, tx :: txs =>
    match r.senderStr[i]?, r.receiverStr[i]? with
    | some senderStr, some receiverStr =>
      printKeys { r with
        senderStr := r.senderStr.set i (snprintf senderStr (printLong tx.sender))
        receiverStr := r.receiverStr.set i (snprintf receiverStr (printLong tx.receiver)) } (i + 1) txs
    | _, _ => none

/-- The second loop on one transaction. -/
def replayTx (r : Replay σ) (i : ℕ) : Replay σ :=
  let senderKey := r.senderStr.getD i []
  let receiverKey := r.receiverStr.getD i []
  let senderBal := (D.get r.db senderKey).getD (r.senderBal.getD i [])
  let receiverBal := (D.get r.db receiverKey).getD (r.receiverBal.getD i [])
  { r with
    db := D.put (D.put r.db senderKey senderBal) receiverKey receiverBal
    senderBal := r.senderBal.set i senderBal
    receiverBal := r.receiverBal.set i receiverBal
    touched := r.touched ++ [(senderKey, receiverKey)] }

def replayBlock (r : Replay σ) (txVec : List Transaction) : Option (Replay σ) :=
  (printKeys r 0 txVec).map fun r => (List.range txVec.length).foldl (replayTx D) r

def replayBlocks (r : Replay σ) : List (List Transaction) → Option (Replay σ)
  | [] => some r
  | txVec :: blocks => (replayBlock D r txVec).bind fun r => replayBlocks r blocks

/-! ## Length of a block -/

structure Replay.Sized (r : Replay σ) : Prop where
  senderStr : r.senderStr.length = strvecSize
  receiverStr : r.receiverStr.length = strvecSize

theorem sized_init (db : σ) : (Replay.init db).Sized := ⟨List.length_replicate, List.length_replicate⟩

/-- `at` throws exactly if the block has more transactions than the vectors have room. -/
theorem printKeys_isSome {r : Replay σ} (h : r.Sized) (i : ℕ) (txs : List Transaction) :
    (printKeys r i txs).isSome ↔ txs = [] ∨ i + txs.length ≤ strvecSize := by
  induction txs generalizing r i with
  | nil => simp [printKeys]
  | cons tx txs ih =>
    rw [printKeys]
    rcases Nat.lt_or_ge i strvecSize with hi | hi
    · have hs : i < r.senderStr.length := h.senderStr ▸ hi
      have hr : i < r.receiverStr.length := h.receiverStr ▸ hi
      rw [List.getElem?_eq_getElem hs, List.getElem?_eq_getElem hr]
      dsimp only
      rw [ih ⟨by simpa using h.senderStr, by simpa using h.receiverStr⟩]
      simp only [List.length_cons, reduceCtorEq, false_or]
      constructor
      · rintro (rfl | hle)
        · exact hi
        · omega
      · intro hle
        exact .inr (by omega)
    · rw [List.getElem?_eq_none (by rw [h.senderStr]; exact hi)]
      simp only [List.length_cons, reduceCtorEq, false_or, Option.isSome_none, Bool.false_eq_true,
        false_iff]
      omega

theorem replayBlock_isSome {r : Replay σ} (h : r.Sized) (txVec : List Transaction) :
    (replayBlock D r txVec).isSome ↔ txVec.length ≤ strvecSize := by
  rw [replayBlock, Option.isSome_map, printKeys_isSome h, Nat.zero_add, or_iff_right_iff_imp]
  rintro rfl
  exact Nat.zero_le _

/-- The vote thread takes a block exactly if the replay gets through it. -/
theorem votePop_isSome {G C : Type} {cfg : Config} {crypto : Crypto G C} {c : ℕ} {cl : Client G}
    {r : Replay σ} (h : r.Sized) {block : Block G} {q : List (Block G)} (hvote : cl.vote = .idle)
    (hq : cl.pendingBlks = block :: q) :
    (cl.act cfg crypto c .votePop).isSome ↔ (replayBlock D r block.txVec).isSome := by
  rw [replayBlock_isSome D h]
  simp only [act, hvote, hq]
  split <;> simp_all

/-! ## The keys -/

structure Replay.Blank (r : Replay σ) : Prop extends r.Sized where
  sender : ∀ (i : ℕ) str, r.senderStr[i]? = some str → str = []
  receiver : ∀ (i : ℕ) str, r.receiverStr[i]? = some str → str = []

theorem blank_init (db : σ) : (Replay.init db).Blank where
  toSized := sized_init db
  sender i str h := by
    obtain ⟨hi, he⟩ := List.getElem?_eq_some_iff.mp h
    rw [← he]
    exact List.getElem_replicate ..
  receiver i str h := by
    obtain ⟨hi, he⟩ := List.getElem?_eq_some_iff.mp h
    rw [← he]
    exact List.getElem_replicate ..

theorem printKeys_blank {r r' : Replay σ} (h : r.Blank) {i : ℕ} {txs : List Transaction}
    (hr : printKeys r i txs = some r') : r' = r := by
  induction txs generalizing i with
  | nil => exact (Option.some.inj hr).symm
  | cons tx txs ih =>
    rw [printKeys] at hr
    split at hr
    · rename_i senderStr receiverStr hs hv
      have hset : ∀ {l : List Text}, l[i]? = some [] → l.set i [] = l := by
        intro l hl
        obtain ⟨hi, he⟩ := List.getElem?_eq_some_iff.mp hl
        conv_lhs => rw [← he]
        exact List.set_getElem_self hi
      have hsender := h.sender i _ hs
      have hreceiver := h.receiver i _ hv
      subst hsender hreceiver
      have hnothing : ∀ text, snprintf [] text = [] := fun _ => rfl
      rw [hnothing, hnothing, hset hs, hset hv] at hr
      exact ih hr
    · cases hr

/-- What the replay of `n` transactions does when nothing was printed: it reads and writes the empty
key. -/
structure Touches (n : ℕ) (r r' : Replay σ) : Prop where
  senderStr : r'.senderStr = r.senderStr
  receiverStr : r'.receiverStr = r.receiverStr
  touched : r'.touched = r.touched ++ List.replicate n ([], [])
  others : ∀ k, k ≠ [] → D.get r'.db k = D.get r.db k
  added : n ≠ 0 ∨ (D.get r.db []).isSome → (D.get r'.db []).isSome
  same : n = 0 → r'.db = r.db

variable {D}

theorem Touches.refl (r : Replay σ) : Touches D 0 r r :=
  ⟨rfl, rfl, (List.append_nil _).symm, fun _ _ => rfl, fun h => h.resolve_left fun hn => hn rfl,
    fun _ => rfl⟩

theorem Touches.trans {m n : ℕ} {r r' r'' : Replay σ} (h : Touches D m r r') (h' : Touches D n r' r'') :
    Touches D (m + n) r r'' where
  senderStr := h'.senderStr.trans h.senderStr
  receiverStr := h'.receiverStr.trans h.receiverStr
  touched := by
    rw [h'.touched, h.touched, List.append_assoc, List.replicate_append_replicate]
  others k hk := (h'.others k hk).trans (h.others k hk)
  added hn := by
    by_cases hm : n = 0
    · refine h'.added (.inr (h.added ?_))
      exact hn.imp_left fun hne => by omega
    · exact h'.added (.inl hm)
  same hn := (h'.same (by omega)).trans (h.same (by omega))

theorem Replay.Blank.of_touches {n : ℕ} {r r' : Replay σ} (h : r.Blank) (ht : Touches D n r r') :
    r'.Blank where
  senderStr := by rw [ht.senderStr]; exact h.senderStr
  receiverStr := by rw [ht.receiverStr]; exact h.receiverStr
  sender := by rw [ht.senderStr]; exact h.sender
  receiver := by rw [ht.receiverStr]; exact h.receiver

theorem touches_replayTx {r : Replay σ} (h : r.Blank) (i : ℕ) : Touches D 1 r (replayTx D r i) := by
  have hkey : ∀ {l : List Text}, (∀ (i : ℕ) str, l[i]? = some str → str = []) → l.getD i [] = [] := by
    intro l hl
    rw [List.getD_eq_getElem?_getD]
    cases hi : l[i]? with
    | none => rfl
    | some str => exact hl i str hi
  have hs := hkey h.sender
  have hr := hkey h.receiver
  constructor
  · rfl
  · rfl
  · simp only [replayTx, hs, hr]
    rfl
  · intro k hk
    simp only [replayTx, hs, hr]
    rw [D.get_put, D.get_put, if_neg (Ne.symm hk), if_neg (Ne.symm hk)]
  · intro _
    simp only [replayTx, hs, hr]
    rw [D.get_put, if_pos rfl]
    rfl
  · intro hn
    cases hn

theorem touches_foldl {r : Replay σ} (h : r.Blank) (is : List ℕ) :
    Touches D is.length r (is.foldl (replayTx D) r) := by
  induction is generalizing r with
  | nil => exact .refl r
  | cons i is ih =>
    have hone : Touches D 1 r (replayTx D r i) := touches_replayTx h i
    rw [List.foldl_cons, List.length_cons, Nat.add_comm]
    exact hone.trans (ih (h.of_touches hone))

theorem touches_replayBlock {r r' : Replay σ} (h : r.Blank) {txVec : List Transaction}
    (hr : replayBlock D r txVec = some r') : Touches D txVec.length r r' := by
  obtain ⟨r₀, hprint, rfl⟩ := Option.map_eq_some_iff.mp hr
  rw [printKeys_blank h hprint]
  have ht := touches_foldl (D := D) h (List.range txVec.length)
  rw [List.length_range] at ht
  exact ht

theorem touches_replayBlocks {r r' : Replay σ} (h : r.Blank) {blocks : List (List Transaction)}
    (hr : replayBlocks D r blocks = some r') : Touches D blocks.flatten.length r r' := by
  induction blocks generalizing r with
  | nil =>
    cases hr
    exact .refl _
  | cons txVec blocks ih =>
    obtain ⟨r₁, hblock, hrest⟩ := Option.bind_eq_some_iff.mp hr
    have hone := touches_replayBlock h hblock
    rw [List.flatten_cons, List.length_append]
    exact hone.trans (ih (h.of_touches hone) hrest)

/-- The replay gets through unless a block is too long for the vectors. -/
theorem replayBlocks_isSome {r : Replay σ} (h : r.Blank) (blocks : List (List Transaction)) :
    (replayBlocks D r blocks).isSome ↔ ∀ txVec ∈ blocks, txVec.length ≤ strvecSize := by
  induction blocks generalizing r with
  | nil => simp [replayBlocks]
  | cons txVec blocks ih =>
    rw [replayBlocks, List.forall_mem_cons, ← replayBlock_isSome D h.toSized]
    cases hblock : replayBlock D r txVec with
    | none => simp
    | some r₁ => simpa using ih (h.of_touches (touches_replayBlock h hblock))

/-! ## What the replay is for -/

theorem get_populate (accountCount : ℕ) (db : σ) (k : Text) :
    D.get (populate D accountCount db) k =
      if ∃ i < accountCount, toText i = k then some k else D.get db k := by
  rw [populate]
  induction accountCount with
  | zero => simp
  | succ n ih =>
    rw [List.range_succ, List.foldl_append, List.foldl_cons, List.foldl_nil, D.get_put, ih]
    by_cases hn : toText n = k
    · rw [if_pos hn, if_pos ⟨n, n.lt_succ_self, hn⟩, hn]
    · rw [if_neg hn]
      congr 1
      refine propext ⟨?_, ?_⟩
      · rintro ⟨i, hi, he⟩
        exact ⟨i, Nat.lt_succ_of_lt hi, he⟩
      · rintro ⟨i, hi, he⟩
        refine ⟨i, lt_of_le_of_ne (Nat.lt_succ_iff.mp hi) ?_, he⟩
        rintro rfl
        exact hn he

/-- The last account that transactions name is not in a database that was empty before. -/
theorem account_not_populated {accountCount : ℕ} {db : σ} (h : D.get db (toText accountCount) = none) :
    D.get (populate D accountCount db) (toText accountCount) = none := by
  rw [get_populate, if_neg, h]
  rintro ⟨i, hi, he⟩
  exact absurd (Decimal.toText_injective he) hi.ne

/-- The replay goes through, touches the accounts of the transactions, which are there, and leaves the
database as it was. -/
def ReplaysOwn (D : Database σ) (db : σ) (blocks : List (List Transaction)) : Prop :=
  ∃ r, replayBlocks D (.init db) blocks = some r ∧
    r.touched = blocks.flatten.map (fun tx => (toText tx.sender, toText tx.receiver)) ∧
    (∀ tx ∈ blocks.flatten, (D.get db (toText tx.sender)).isSome ∧
      (D.get db (toText tx.receiver)).isSome) ∧
    ∀ k, D.get r.db k = D.get db k

/-- The replay does what it is for exactly if there are no transactions. -/
theorem replaysOwn_iff (D : Database σ) (accountCount : ℕ) (db : σ) (blocks : List (List Transaction)) :
    ReplaysOwn D (populate D accountCount db) blocks ↔ ∀ txVec ∈ blocks, txVec = [] := by
  rw [← List.flatten_eq_nil_iff]
  constructor
  · rintro ⟨r, hr, htouched, -, -⟩
    rw [(touches_replayBlocks (blank_init _) hr).touched] at htouched
    cases hflat : blocks.flatten with
    | nil => rfl
    | cons tx txs =>
      rw [hflat] at htouched
      have hfirst := congrArg List.head? htouched
      simp only [Replay.init, List.nil_append, List.length_cons, List.replicate_succ, List.head?_cons,
        List.map_cons, Option.some.injEq, Prod.mk.injEq] at hfirst
      exact absurd hfirst.1.symm (Decimal.toText_ne_nil tx.sender)
  · intro hflat
    have hsome : (replayBlocks D (.init (populate D accountCount db)) blocks).isSome := by
      refine (replayBlocks_isSome (blank_init _) blocks).mpr fun txVec hm => ?_
      rw [List.flatten_eq_nil_iff.mp hflat txVec hm]
      exact Nat.zero_le _
    obtain ⟨r, hr⟩ := Option.isSome_iff_exists.mp hsome
    have ht := touches_replayBlocks (blank_init _) hr
    rw [hflat] at ht
    refine ⟨r, hr, ?_, ?_, fun k => ?_⟩
    · rw [ht.touched, hflat]
      rfl
    · rw [hflat]
      exact fun tx hm => by cases hm
    · rw [ht.same rfl]
      rfl

/-- What it does instead: an entry for the empty key is added, and all others are left alone. -/
theorem replayBlocks_adds {r : Replay σ} {db : σ} {blocks : List (List Transaction)}
    (hr : replayBlocks D (.init db) blocks = some r) (hne : blocks.flatten ≠ []) :
    (D.get r.db []).isSome ∧ ∀ k, k ≠ [] → D.get r.db k = D.get db k := by
  have ht := touches_replayBlocks (blank_init db) hr
  refine ⟨ht.added (.inl ?_), ht.others⟩
  rwa [ne_eq, List.length_eq_zero_iff]

/-- One transaction of account 1 with itself, which `generate_tx` can draw from two accounts. -/
theorem exists_lost_account :
    Server.drawn ⟨2, 2, 1, 1, 5, 2, 100000, true⟩ ⟨1, 1, 1, 0, 1⟩ = true ∧
      ¬ReplaysOwn .map (populate .map 2 ∅) [[⟨1, 1, 1, 0, 1⟩]] := by
  refine ⟨by decide, ?_⟩
  rw [replaysOwn_iff]
  intro h
  cases h _ (List.mem_singleton_self _)

end Client

end TomChain
