import TokenPlugin.Reference
import TokenPlugin.Token.Shown

/-! # GET_UTXO and the uncommitted batches

The handler reads the outputs and the proof under the current head of the token state, and replies
with the committed root. A reply is one from the committed state when the two heads are the same, that
is, while no uncommitted batch has changed the token state. -/

namespace TokenPlugin.Properties.CommittedReads

open Python Token.Types Token.Handlers Token.Views Token.Updates Token.History Token.GetUtxoHandler
open Token.Listing Token.Replies Token.Shown Database Node Steps Effects Invariant Applying Runs
open Messages.Fields Lib.Utxo Lib.Program Reference

variable {P : Platform} {n : Node P} {g : Trace P} {ok : Action → Prop}

/-! ### Addresses in a run -/

/-- Static validation sees to the addresses of outputs. -/
theorem admitted_addressed : Admitted P ok Addressed := by
  intro r version auths time n n' _ hst heff txn htxn
  have hlast : ∀ {l : List TokenTxn} {x y : TokenTxn}, l ++ [x] = l ++ [y] → x = y := fun h => by
    simpa using h
  have hvalid : ∀ {outs : List OutputSpec}, ValidOutputs P outs → ∀ o ∈ outs, ':' ∉ o.address :=
    fun h o ho => (h.1 o ho).1.colon_notMem
  cases heff with
  | mint hop hs =>
    rw [tokenTxns_withToken] at htxn
    obtain rfl := hlast htxn
    have := hst.1
    rw [hop] at this
    exact hvalid this.1
  | xfer hop hpays hplain hs =>
    rw [tokenTxns_withToken] at htxn
    obtain rfl := hlast htxn
    have := hst.1
    rw [hop] at this
    exact hvalid this.2.1
  | domain hop hf hfree =>
    rw [tokenTxns_withDomain] at htxn
    simp at htxn
  | domainFees hop hf hpays hfees hs =>
    rw [tokenTxns_withFees] at htxn
    obtain rfl := hlast htxn
    have := hst.2
    rw [hf] at this
    exact hvalid this.2.1.1
  | config hop fees =>
    have : tokenTxns { n with configFees := fees } = tokenTxns n := rfl
    rw [this] at htxn
    simp at htxn

/-! ### Replies from the committed state -/

/-- The roots of the token state. -/
def headHash (n : Node P) : P.state.Root := P.state.headHash n.stores.tokenState
def committedHeadHash (n : Node P) : P.state.Root := P.state.committedHeadHash n.stores.tokenState

/-- The coins that the committed part of the token ledger leaves unspent. -/
def committedCoins (n : Node P) : List Token.Coins.Coin :=
  unspent ((P.ledger.contents n.tokenLedger).committed.map toTx)

/-- The reply shows a page of the outputs that are unspent by the committed ledger, and its proof is
one under the committed root. -/
structure FromCommitted (N : ReadNode P) (n : Node P) (address : Str) (reply : List (Str × Json)) :
    Prop where
  outputs : ∃ (L : List Output) (i : ℕ), L.Pairwise (·.seqNo.val ≤ ·.seqNo.val) ∧ L.Nodup ∧
    (∀ o, o ∈ L ↔ ∃ a k x, address <+: a ∧ o = outputOf a k x ∧ ⟨a, k, .int x⟩ ∈ committedCoins n) ∧
    Json.field reply "outputs" = some (.list (((L.drop i).take 1000).map ofOutput))
  proof : ∀ p, Json.field reply "state_proof" = some p → ∃ multiSig,
    p = .obj [("multi_signature", multiSig), ("root_hash", .str (N.serializeRoot (committedHeadHash n))),
      ("proof_nodes", N.reads.proofNodes (committedHeadHash n) address)]

/-- The operation of a request holds nothing that would replace the outputs or the proof. -/
def Plain (op : List (Str × Json)) : Prop :=
  ("outputs" : Str) ∉ op.map Prod.fst ∧ ("state_proof" : Str) ∉ op.map Prod.fst

theorem startAt_eq_drop (L : List Output) (start : Option PyInt) : ∃ i, startAt L start = L.drop i := by
  have hnil : [] = L.drop L.length := by simp
  unfold startAt
  cases start with
  | none => exact ⟨0, rfl⟩
  | some f =>
    simp only
    split_ifs
    · unfold startFrom
      split
      · next i _ =>
        split_ifs
        · exact ⟨i, rfl⟩
        · exact ⟨_, hnil⟩
      · exact ⟨_, hnil⟩
    · exact ⟨0, rfl⟩

/-- A request that passes static validation names a valid address. -/
theorem address_of_staticValidation {op : List (Str × Json)} (h : staticValidation P op = .ok ()) :
    ∃ address, Json.field op "address" = some (.str address) ∧ ValidAddress P address := by
  have haddr : addressValidate P op = .ok () := by
    unfold staticValidation at h
    rcases hx : addressValidate P op with e | u
    · rw [hx] at h; cases h
    · rfl
  unfold addressValidate at haddr
  cases hv : Json.field op "address" with
  | none => rw [hv] at haddr; cases haddr
  | some v =>
    rw [hv] at haddr
    have hvalid : publicAddressField P v = valid := by
      rcases hp : publicAddressField P v with e | (_ | msg)
      · simp [hp, bind, Except.bind] at haddr
      · rfl
      · simp [hp, bind, Except.bind] at haddr
    obtain ⟨a, ha, hva⟩ := publicAddressField_eq_valid.mp hvalid
    refine ⟨a, ?_, hva⟩
    cases v <;> simp_all [Messages.Fields.asStr]

theorem field_state_proof {N : ReadNode P} {r : ReadRequest} {L : List Output} {p : Option Json}
    (h : ("state_proof" : Str) ∉ r.operation.map Prod.fst) :
    Json.field (attach N (resultOf r L) p) "state_proof" = none ∨
      Json.field (attach N (resultOf r L) p) "state_proof" = p := by
  have hbase : Json.field (resultOf r L) "state_proof" = none := by
    have hupd : Json.field (update [("identifier", .str r.identifier), ("reqId", .int r.reqId),
        ("outputs", .list ((L.take utxoLimit).map ofOutput))] r.operation) "state_proof" = none :=
      (field_update h).trans rfl
    unfold resultOf
    cases nextSeqno L with
    | none => exact hupd
    | some n =>
      simp only
      split_ifs
      · rw [field_setItem, if_neg (by decide)]; exact hupd
      · exact hupd
  cases p with
  | none => exact Or.inl hbase
  | some p =>
    simp only [attach]
    split_ifs
    · right
      rw [field_setItem, if_pos rfl]
    · exact Or.inl hbase

/-- The committed token state holds the committed coins. -/
theorem committed_holds (h : Reach ok n g) : TokenState (P.state.lookup (committedHeadHash n)) ∧
    Token.Coins.HoldsState (P.state.lookup (committedHeadHash n)) (committedCoins n) := by
  have hbase := (reach_inv (Q := Addressed) admitted_addressed h).base
  have hcoins : committedCoins n = unspent (txs ((committedPoint n).txns.zip g.labels)) := by
    have hmap : ((committedPoint n).txns.zip g.labels).map Prod.fst = (committedPoint n).txns :=
      List.map_fst_zip hbase.length_le
    have hcomp : txs ((committedPoint n).txns.zip g.labels) =
        (((committedPoint n).txns.zip g.labels).map Prod.fst).map toTx := by
      rw [List.map_map]
      rfl
    rw [hcomp, hmap]
    rfl
  rw [hcoins]
  exact ⟨tokenState_of_built hbase.built fun _ _ => id, hbase.built.holds.2.state⟩

/-- A mint, in an open batch. -/
def uncommittedMint : List Action := [mint 5]

theorem uncommittedMint_isSome : (run ref uncommittedMint).isSome := by decide +kernel

/-- The node after it. -/
def mintNode : Node ref := ((run ref uncommittedMint).get uncommittedMint_isSome).1

def mintTrace : Trace ref := ((run ref uncommittedMint).get uncommittedMint_isSome).2

theorem reach_mintNode : Reach (fun _ => True) mintNode mintTrace :=
  reach_run (Option.some_get uncommittedMint_isSome).symm fun _ _ => trivial

end TokenPlugin.Properties.CommittedReads
