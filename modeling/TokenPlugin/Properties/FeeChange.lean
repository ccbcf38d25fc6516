import TokenPlugin.Reference
import TokenPlugin.Token.ClientAuthnr
import TokenPlugin.Supply

/-! # What a fee section may create

`DomainFeeHandler` checks nothing itself. Where the type's own handler has consulted the authorizer, the
change of a fee section is at most what its inputs hold; where it has not, the change may be anything. -/

namespace TokenPlugin.Properties.FeeChange

open Python Token.Types Token.UtxoCache Token.TokenUtils Token.Handlers Token.Views Token.Sums
open Token.History
open Token.Coins Token.Updates Token.Supply Token.ClientAuthnr Messages.Fields TokenPlugin.Supply
open Fees.FeesAuthorizer Fees.DomainFeeHandler Fees.Acceptance
open Database Node Steps Effects Invariant Applying Runs Lib.Utxo Lib.Program Reference

variable {P : Platform} {n n' : Node P} {g : Trace P} {ok : Action → Prop}

/-- What the inputs of a fee section hold in the uncommitted cache. -/
def holdings (n : Node P) (s : FeesSection) : ℤ :=
  (s.inputs.map (listed (P.cache.contents n.stores.utxoCache).read)).sum

/-- The sum of all unspent outputs has not grown, and no FEES transaction that was appended has a
negative amount of fees. -/
def CreatesNothing (n n' : Node P) : Prop :=
  supply n' ≤ supply n ∧
    ∀ txn ∈ (tokenTxns n').drop (tokenTxns n).length, ∀ z ∈ txn.fees, 0 ≤ z

variable {r : Request} {typ : Str} {version : XferVersion} {auths : List AuthConstraint} {time : ℤ}
  {section_ : FeesSection} {raw : Json}

/-- What applying a domain request with a fee section does to the supply. -/
theorem supply_domainFees (h : Reach ok n g) (hv : ValidFees P section_) {txn : DomainTxn} {fees : ℤ}
    {s : Stores P} (hs : Returns (update .fees (feesTxn P section_ txn fees (nextSeqNo n)) false)
      n.stores () s) :
    supply (withFees n txn (feesTxn P section_ txn fees (nextSeqNo n)) fees s) =
      supply n - holdings n section_ + sumOutputs section_.outputs := by
  have hb := (reach_inv_true h).built
  obtain ⟨hc, hh⟩ := hb.built.holds
  have hok := entryOk_next (reach_inv_true h) (e := (feesTxn P section_ txn fees (nextSeqNo n), ⟨.fees, 0⟩))
    ⟨rfl, rfl, hv.2.1.1.2, nofun⟩
  have hpos : ∀ i ∈ section_.inputs, i.seqNo.val = (inputName i).2 := fun i hi => by
    have := (hv.1.1.1 i hi).2
    simp only [inputName]
    omega
  exact total_update (e := (feesTxn P section_ txn fees (nextSeqNo n), ⟨.fees, 0⟩)) hc hh hok hpos
    (returns_update_uncommitted false hs).1

/-- What the fees are worked out to be: at least 0 where the inputs hold the change. -/
theorem fees_nonneg_of_holdings (h : Reach ok n g) (hv : ValidFees P section_)
    (hf : r.fees = some section_) {z : ℤ}
    (hz : Returns (calculateFeesFromReq r) n.stores z n.stores)
    (hle : sumOutputs section_.outputs ≤ holdings n section_) : 0 ≤ z := by
  have hb := (reach_inv_true h).built
  obtain ⟨-, hh⟩ := hb.built.holds
  have hn : (section_.inputs.map inputKey).Nodup := hv.1.1.2
  rcases hsum : sumInputs section_.inputs false n.stores with ⟨e | t, u⟩
  · -- the sum raised something, so the fees are 0
    have hread := readOnly_sumInputs section_.inputs false n.stores
    rw [hsum] at hread
    obtain rfl := hread
    have hzero : Returns (calculateFeesFromReq r) n.stores 0 n.stores := by
      unfold calculateFeesFromReq
      simp only [hasFees, hf, Option.isSome_some, if_true, feesPayment, returns_bind, returns_ofExcept]
      refine ⟨_, n.stores, ⟨rfl, rfl⟩, returns_catching_iff.mpr (Or.inr ⟨e, pure 0, n.stores, ?_, rfl,
        returns_pure.mpr ⟨rfl, rfl⟩⟩)⟩
      show Prog.andThen _ _ _ = _
      unfold Prog.andThen
      rw [hsum]
    exact (hz.unique hzero).1.ge
  · have hret : Returns (sumInputs section_.inputs false) n.stores t u := hsum
    obtain rfl := (readOnly_sumInputs _ _).eq hret
    rw [(returns_calculateFees hf hz).2 t hret]
    have hview := returns_sumInputs_uncommitted false hret
    obtain ⟨-, rfl, hin⟩ := returns_sumInputs (v := (point n).view) hh.cache hn hview
    have hlist : holdings n section_ = ((section_.inputs.map inputName).map (worth PyInt.val _)).sum :=
      sum_listed hh.cache fun i hi => (hin i hi).2
    omega

/-- A request that the authorizer was asked about holds its change. -/
theorem holdings_of_paid (h : Reach ok n g) (hv : ValidFees P section_)
    (hpays : PaysFees auths n.configFees section_.inputs section_.outputs n.stores) (ha : auths ≠ []) :
    sumOutputs section_.outputs ≤ holdings n section_ := by
  obtain ⟨c, hc⟩ := List.exists_mem_of_ne_nil _ ha
  obtain ⟨-, hh⟩ := (reach_inv_true h).built.built.holds
  have hp : PaysFor section_.inputs section_.outputs (feesAmount n.configFees c) (point n).view :=
    returns_sumInputs_uncommitted false (hpays c hc)
  have := (PaysFor.sum_listed hh.cache hv.1.1.2 hp).2
  have hlist : holdings n section_ = (section_.inputs.map (listed (point n).view.cache)).sum := rfl
  omega

/-- **What a fee section may create.** A domain request whose fee section is valid and signed, and that
has been validated and applied in a reachable state, creates nothing exactly when the authorizer was
consulted, or when the change is at most what the inputs hold. -/
theorem createsNothing_iff (h : Reach ok n g) (hop : r.operation = .domain typ)
    (ht : typ ∈ P.domainTypes) (hvalid : txnFeesField P raw = valid)
    (hread : r.fees = readFees raw) (hf : r.fees = some section_)
    (_hsig : verifySignature P (some raw) r.payloadDigest = .ok ())
    (happ : Returns (applyStep r version auths time) n () n') :
    CreatesNothing n n' ↔ auths ≠ [] ∨ sumOutputs section_.outputs ≤ holdings n section_ := by
  obtain ⟨s, hs, hv⟩ := txnFeesField_eq_valid.mp hvalid
  obtain rfl : s = section_ := Option.some.inj ((hs.symm.trans hread.symm).trans hf)
  have hst : StaticOk P r := by
    unfold StaticOk
    rw [hop, hf]
    exact ⟨ht, hv⟩
  cases applyEffect hst happ with
  | mint hop' | xfer hop' => rw [hop] at hop'; cases hop'
  | domain _ hf' => rw [hf] at hf'; cases hf'
  | config hop' => rw [hop] at hop'; cases hop'
  | @domainFees typ' s' fees st hop' hf' hpays hfees hs' =>
    obtain rfl : s = s' := Option.some.inj (hf.symm.trans hf')
    have hsupply := supply_domainFees h hv hs'
    have hnew : ∀ txn ∈ (tokenTxns (withFees n (domainTxn n typ' r time)
        (feesTxn P s (domainTxn n typ' r time) fees (nextSeqNo n)) fees st)).drop (tokenTxns n).length,
        txn.fees = some fees := by
      rw [tokenTxns_withFees, List.drop_left]
      intro txn htxn
      obtain rfl := List.mem_singleton.mp htxn
      rfl
    constructor
    · rintro ⟨hle, -⟩
      exact Or.inr (by omega)
    · intro hcond
      have hle : sumOutputs s.outputs ≤ holdings n s := hcond.elim (holdings_of_paid h hv hpays) id
      refine ⟨by omega, fun txn htxn z hz => ?_⟩
      rw [hnew txn htxn] at hz
      obtain rfl : fees = z := by simpa using hz
      exact fees_nonneg_of_holdings h hv hf hfees hle

/-! ### A section that creates tokens -/

/-- 10 tokens are minted for the first address. -/
def tenMinted : List Action := [mint 10, .close .token]

theorem tenMinted_isSome : (run ref tenMinted).isSome := by decide +kernel

/-- The node that holds them. -/
def tenNode : Node ref := ((run ref tenMinted).get tenMinted_isSome).1

theorem reach_tenNode : Reach (fun _ => True) tenNode ((run ref tenMinted).get tenMinted_isSome).2 :=
  reach_run (Option.some_get tenMinted_isSome).symm fun _ _ => trivial

/-- A fee section that spends these 10 and asks for a change of 30, as it is sent. -/
def thirtyBack : Json :=
  .list [.list [.obj [("address", .str alice.address), ("seqNo", .int 1)]],
    .list [.obj [("address", .str bob.address), ("amount", .int 30)]], .list [.str signature]]

/-- The NYM it belongs to. -/
def thirtyRequest : Request := request (.domain nym) (some (Reference.section_ 1 30))

/-- The node once the NYM has been applied without any question to the authorizer. -/
def thirtyNode : Node ref := (applyStep thirtyRequest .registered [] 0 tenNode).2

theorem returns_thirty : Returns (applyStep thirtyRequest .registered [] 0) tenNode () thirtyNode :=
  Prod.ext (show (applyStep thirtyRequest .registered [] 0 tenNode).1 = .ok () by decide +kernel) rfl

theorem createsNothing_iff_thirty : CreatesNothing tenNode thirtyNode ↔
    ([] : List AuthConstraint) ≠ [] ∨
      sumOutputs (Reference.section_ 1 30).outputs ≤ holdings tenNode (Reference.section_ 1 30) :=
  createsNothing_iff reach_tenNode rfl (by decide) (show txnFeesField ref thirtyBack = valid by decide +kernel)
    (by decide +kernel) rfl (by decide +kernel) returns_thirty

/-- The section is valid and signed, and its FEES transaction has a negative amount of fees. -/
theorem not_createsNothing_thirty :
    Reach (fun _ => True) tenNode ((run ref tenMinted).get tenMinted_isSome).2 ∧
    txnFeesField ref thirtyBack = valid ∧ thirtyRequest.fees = readFees thirtyBack ∧
    verifySignature ref (some thirtyBack) thirtyRequest.payloadDigest = .ok () ∧
    Returns (applyStep thirtyRequest .registered [] 0) tenNode () thirtyNode ∧
    ¬CreatesNothing tenNode thirtyNode := by
  refine ⟨reach_tenNode, by decide +kernel, by decide +kernel, by decide +kernel, returns_thirty,
    fun h => ?_⟩
  have hfees : (((tokenTxns thirtyNode).drop (tokenTxns tenNode).length).map TokenTxn.fees) =
      [some (-20)] := by decide +kernel
  obtain ⟨txn, htxn⟩ : ∃ txn, (tokenTxns thirtyNode).drop (tokenTxns tenNode).length = [txn] :=
    List.length_eq_one_iff.mp (by simpa using congrArg List.length hfees)
  rw [htxn] at hfees
  have hneg := h.2 txn (by rw [htxn]; exact List.mem_singleton_self _) (-20)
    (by simpa using hfees)
  omega

end TokenPlugin.Properties.FeeChange
