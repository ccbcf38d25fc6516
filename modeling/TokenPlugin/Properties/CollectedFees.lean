import TokenPlugin.Reference
import TokenPlugin.Supply

/-! # Every authorised fee of a transfer or a domain request is collected

The handlers of these types spend the inputs that the authorizer has looked at. The handlers of
MINT_PUBLIC, SET_FEES and the auth rules do not, although the authorizer asks for their fees as well. -/

namespace TokenPlugin.Properties.CollectedFees

open Python Token.Types Token.UtxoCache Token.Handlers Token.History Token.Views Database Node Steps Effects
open Invariant Applying Runs Messages.Fields Fees.FeesAuthorizer Fees.DomainFeeHandler Fees.Acceptance
open Token.Coins Token.Updates Token.Sums TokenPlugin.Supply Lib.Utxo Lib.Program Reference

variable {P : Platform} {n n' : Node P} {g : Trace P} {ok : Action → Prop}

/-- The inputs that pay the fee of a request. -/
def payingInputs (r : Request) : List Input :=
  match r.operation with
  | .xfer inputs _ _ => inputs
  | _ => (r.fees.map FeesSection.inputs).getD []

/-- The fee has left the supply, and none of the inputs that paid is unspent. -/
def Collected (n n' : Node P) (r : Request) (fee : ℕ) : Prop :=
  (∀ i ∈ payingInputs r, ¬Unspent n' i) ∧ supply n' = supply n - fee

/-- The request is a transfer, or one of a type of the domain ledger. -/
def Charged (P : Platform) (r : Request) : Prop :=
  match r.operation with
  | .xfer _ _ _ => True
  | .domain typ => typ ∈ P.domainTypes
  | _ => False

variable {r : Request} {auths : List AuthConstraint} {time : ℤ} {c : AuthConstraint} {msg : Str}

/-- Only transfers have the type of one. -/
theorem exists_xfer_of_txnType (hst : StaticOk P r) (h : txnType P r.operation = xferPublic) :
    ∃ ins outs sigs, r.operation = .xfer ins outs sigs := by
  have hv := hst.1
  cases ho : r.operation with
  | xfer ins outs sigs => exact ⟨ins, outs, sigs, rfl⟩
  | mint => rw [ho] at h; exact absurd (show mintPublic = xferPublic from h) (by decide)
  | setFees => rw [ho] at h; exact absurd (show Token.Types.setFees = xferPublic from h) (by decide)
  | authRule =>
    rw [ho] at h
    exact absurd (show P.authRule ∈ _ by rw [show P.authRule = xferPublic from h]; decide)
      (P.rules_disjoint _ List.mem_cons_self)
  | authRules =>
    rw [ho] at h
    exact absurd (show P.authRules ∈ _ by rw [show P.authRules = xferPublic from h]; decide)
      (P.rules_disjoint _ (List.mem_cons_of_mem _ List.mem_cons_self))
  | domain typ =>
    rw [ho] at h hv
    exact absurd (show typ ∈ _ by rw [show typ = xferPublic from h]; simp) (P.types_disjoint _ hv)

/-- **Authorised fees are collected.** When the authorizer has accepted a transfer or a domain request
with a fee, and the request has been validated and applied by the registered handlers, the fee has been
collected. -/
theorem collected (h : Reach ok n g) (hst : StaticOk P r) (hop : Charged P r)
    (hauth : Returns (authorize P n.configFees r c) n.stores (true, msg) n.stores)
    (happ : Returns (applyStep r .registered auths time) n () n') :
    Collected n n' r (feesAmount n.configFees c) := by
  have hinv := reach_inv_true h
  have hv := hst.1
  cases applyEffect hst happ with
  | mint hop' => rw [Charged, hop'] at hop; exact hop.elim
  | config hop' =>
    unfold Charged at hop
    split at hop
    · next heq => rw [heq] at hop'; cases hop'
    · next heq => rw [heq] at hop'; cases hop'
    · exact hop.elim
  | @xfer ins outs sigs s hop' _ _ hs =>
    rw [hop'] at hv
    have hu := updater_xfer .registered auths n.configFees hop'
    have hok : EntryOk (nextSeqNo n)
        (xferTxn r ins outs sigs time (nextSeqNo n), labelOf n.configFees r .registered auths) :=
      ⟨rfl, by rw [hu]; rfl, hv.2.1.2, fun hm => by rw [hu] at hm; cases hm⟩
    obtain ⟨hsupply, hspent⟩ := supply_paid hinv hok hv.1.2 (paysFor_of_authorize_xfer hop' hauth) hs
      (withToken_stores n (xferTxn r ins outs sigs time (nextSeqNo n)) s)
    exact ⟨by rw [payingInputs, hop']; exact hspent, hsupply⟩
  | @domain typ hop' hf _ =>
    have htyp : txnType P r.operation ≠ xferPublic := fun he => by
      obtain ⟨_, _, _, ho⟩ := exists_xfer_of_txnType hst he
      rw [hop'] at ho
      cases ho
    have hzero := paysFor_of_authorize htyp hauth
    rw [hf] at hzero
    refine ⟨by rw [payingInputs, hop', hf]; simp, ?_⟩
    rw [show feesAmount n.configFees c = 0 from hzero]
    exact (Int.sub_zero _).symm
  | @domainFees typ section_ fees s hop' hf _ _ hs =>
    have htyp : txnType P r.operation ≠ xferPublic := fun he => by
      obtain ⟨_, _, _, ho⟩ := exists_xfer_of_txnType hst he
      rw [hop'] at ho
      cases ho
    have hp := paysFor_of_authorize htyp hauth
    have hvf := hst.2
    rw [hf] at hp hvf
    have hok : EntryOk (nextSeqNo n)
        (feesTxn P section_ (domainTxn n typ r time) fees (nextSeqNo n), ⟨.fees, 0⟩) :=
      ⟨rfl, rfl, hvf.2.1.1.2, nofun⟩
    obtain ⟨hsupply, hspent⟩ := supply_paid hinv hok hvf.1.1.2 hp hs
      (withFees_stores n (domainTxn n typ r time)
        (feesTxn P section_ (domainTxn n typ r time) fees (nextSeqNo n)) fees s)
    exact ⟨by rw [payingInputs, hop', hf]; exact hspent, hsupply⟩

/-- An input that is a coin is unspent. -/
theorem unspent_of_mem {U : List Coin} (hh : HoldsCache (point n').cache U) {i : Input}
    (hi : inputName i ∈ U.map Coin.key) (hval : i.seqNo.val = (inputName i).2) : Unspent n' i := by
  obtain ⟨d, hd, hk⟩ := List.mem_map.mp hi
  refine ⟨d.amount.str, (mem_outputsOf hh).mpr ⟨d, hd, congrArg Prod.fst hk, ?_, rfl⟩⟩
  rw [hval, ← hk]
  rfl

/-- **The other fees are not.** After a request of any other type, every input that the authorizer has
accepted in payment is unspent. -/
theorem still_unspent {version : XferVersion} (h : Reach ok n g) (hst : StaticOk P r)
    (hop : ¬Charged P r) (hauth : Returns (authorize P n.configFees r c) n.stores (true, msg) n.stores)
    (happ : Returns (applyStep r version auths time) n () n') : ∀ i ∈ payingInputs r, Unspent n' i := by
  have hb := (reach_inv_true h).built
  obtain ⟨hc, hh⟩ := hb.built.holds
  have hv := hst.1
  -- the inputs are coins of the present point
  have hcoins : ∀ i ∈ payingInputs r, inputName i ∈ (unspent (txs ((point n).txns.zip g.labels))).map Coin.key ∧
      i.seqNo.val = (inputName i).2 := by
    have htyp : txnType P r.operation ≠ xferPublic := fun he => by
      obtain ⟨ins, outs, sigs, ho⟩ := exists_xfer_of_txnType hst he
      rw [Charged, ho] at hop
      exact hop trivial
    have hp := paysFor_of_authorize htyp hauth
    have hvf := hst.2
    have hpay : payingInputs r = (r.fees.map FeesSection.inputs).getD [] := by
      unfold payingInputs
      split
      · next heq => rw [heq] at htyp; exact absurd rfl htyp
      · rfl
    rw [hpay]
    cases hf : r.fees with
    | none => simp
    | some section_ =>
      rw [hf] at hp hvf
      exact (returns_sumInputs (v := (point n).view) hh.cache hvf.1.1.2
        (returns_sumInputs_uncommitted false hp)).2.2
  intro i hi
  obtain ⟨hmem, hval⟩ := hcoins i hi
  cases applyEffect hst happ with
  | xfer hop' => rw [Charged, hop'] at hop; exact absurd trivial hop
  | domain hop' | domainFees hop' => rw [Charged, hop'] at hop; rw [hop'] at hv; exact absurd hv hop
  | config => exact unspent_of_mem hh.cache hmem hval
  | @mint outs s hop' hs =>
    rw [hop'] at hv
    have hok := entryOk_next (reach_inv_true h) (e := (mintTxn r outs time (nextSeqNo n), ⟨.mint, 0⟩))
      ⟨rfl, rfl, hv.1.2, fun _ => rfl⟩
    obtain ⟨-, U', hspends, -, hh'⟩ := hok.spends hc hh (returns_update_uncommitted false hs).1
    obtain rfl : unspent (txs ((point n).txns.zip g.labels)) = U' := hspends
    have hcache : HoldsCache (point (withToken n (mintTxn r outs time (nextSeqNo n)) s)).cache _ := hh'.cache
    refine unspent_of_mem hcache ?_ hval
    rw [List.map_append]
    exact List.mem_append_left _ hmem

/-! ### A fee that is collected, and one that is not -/

/-- Fees for NYM and for MINT_PUBLIC are set, and 100 tokens are minted. -/
def funded : List Action := [.config [("nym", 10), ("mint", 5)], mint 100, .close .token]

theorem funded_isSome : (run ref funded).isSome := by decide +kernel

/-- The node after that. -/
def fundedNode : Node ref := ((run ref funded).get funded_isSome).1

theorem reach_fundedNode : Reach (fun _ => True) fundedNode ((run ref funded).get funded_isSome).2 :=
  reach_run (Option.some_get funded_isSome).symm fun _ _ => trivial

/-- A request that pays from the minted output. -/
def paidRequest (op : Operation) (change : ℤ) : Request := request op (some (section_ 1 change))

theorem collected_nym : Collected fundedNode
    (applyStep (paidRequest (.domain nym) 90) .registered [asks "nym"] 0 fundedNode).2
    (paidRequest (.domain nym) 90) (feesAmount fundedNode.configFees (asks "nym")) :=
  have hauth : Returns (authorize ref fundedNode.configFees (paidRequest (.domain nym) 90) (asks "nym"))
      fundedNode.stores (true, []) fundedNode.stores :=
    Prod.ext (show (authorize ref fundedNode.configFees (paidRequest (.domain nym) 90) (asks "nym")
      fundedNode.stores).1 = .ok (true, []) by decide +kernel) ((readOnly_authorize _ _ _) _)
  collected reach_fundedNode (by decide +kernel) (show nym ∈ ref.domainTypes by decide) hauth
    (Prod.ext (show (applyStep (paidRequest (.domain nym) 90) .registered [asks "nym"] 0
      fundedNode).1 = .ok () by decide +kernel) rfl)

/-- A mint of 7 that the authorizer asks 5 for. -/
def paidMint : Request := paidRequest (.mint [⟨bob.address, .int 7⟩]) 95

/-- The node once it has been applied. -/
def mintedNode : Node ref := (applyStep paidMint .registered [asks "mint"] 0 fundedNode).2

/-- The authorizer accepts the fee of a mint, and the input that pays it stays unspent. -/
theorem not_collected_mint :
    Reach (fun _ => True) fundedNode ((run ref funded).get funded_isSome).2 ∧ StaticOk ref paidMint ∧
    feesAmount fundedNode.configFees (asks "mint") = 5 ∧
    Returns (authorize ref fundedNode.configFees paidMint (asks "mint")) fundedNode.stores (true, [])
      fundedNode.stores ∧
    Returns (applyStep paidMint .registered [asks "mint"] 0) fundedNode () mintedNode ∧
    ¬Collected fundedNode mintedNode paidMint 5 := by
  refine ⟨reach_fundedNode, by decide +kernel, by decide +kernel, ?_, ?_, fun h => ?_⟩
  · exact Prod.ext (show (authorize ref fundedNode.configFees paidMint (asks "mint")
      fundedNode.stores).1 = .ok (true, []) by decide +kernel) ((readOnly_authorize _ _ _) _)
  · exact Prod.ext (show (applyStep paidMint .registered [asks "mint"] 0 fundedNode).1 = .ok () by
      decide +kernel) rfl
  · refine h.1 ⟨alice.address, .int 1⟩ (by decide +kernel) ⟨"100", ?_⟩
    decide +kernel

end TokenPlugin.Properties.CollectedFees
