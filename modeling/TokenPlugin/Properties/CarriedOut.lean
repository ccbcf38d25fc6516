import TokenPlugin.Reference
import TokenPlugin.Supply

/-! # What validation accepts, application carries out

Validation compares sequence numbers as numbers, so a boolean is the number it equals; spending compares
their texts, and the text of a boolean is no number. An accepted request is carried out exactly when no
input has a boolean for a sequence number. -/

namespace TokenPlugin.Properties.CarriedOut

open Python Token.Types Token.UtxoCache Token.Handlers Token.Views Token.Coins Token.Updates Token.Sums
open Token.History Database Node Steps Effects Invariant Applying Runs TokenPlugin.Supply Messages.Fields
open Fees.FeesAuthorizer Fees.DomainFeeHandler Fees.Acceptance Lib.Utxo Lib.Program Reference

variable {P : Platform} {n : Node P} {g : Trace P} {ok : Action → Prop}

/-- No sequence number is a boolean. -/
def NoBoolean (ins : List Input) : Prop := ∀ i ∈ ins, i.seqNo.isBool = false

/-- Different inputs that name coins name different coins. -/
theorem nodup_inputName {ins : List Input} (hn : (ins.map inputKey).Nodup)
    (hval : ∀ i ∈ ins, i.seqNo.val = (inputName i).2) : (ins.map inputName).Nodup := by
  have hkeys : ins.map inputKey = (ins.map inputName).map fun k => (k.1, (k.2 : ℤ)) := by
    rw [List.map_map]
    exact List.map_congr_left fun i hi => Prod.ext rfl (hval i hi)
  rw [hkeys] at hn
  exact hn.of_map _

/-- **A paid transaction is applied exactly when none of its inputs has a boolean number.** -/
theorem exists_update_iff (h : Reach ok n g) {u : Updater} {txn : TokenTxn} {fee : ℤ}
    (hu : u ≠ .mint) (hseq : txn.seqNo = nextSeqNo n) (hn : (txn.inputs.map inputKey).Nodup)
    (ho : (txn.outputs.map OutputSpec.address).Nodup)
    (hp : PaysFor txn.inputs txn.outputs fee n.stores) :
    (∃ s, Returns (update u txn false) n.stores () s) ↔ NoBoolean txn.inputs := by
  have hinv := reach_inv_true h
  obtain ⟨hc, hh⟩ := hinv.built.built.holds
  have hfresh : ∀ d ∈ unspent (txs ((point n).txns.zip g.labels)), d.seqNo ≠ txn.seqNo := fun d hd => by
    have hle := (hc.seqNo_le hd).2
    rw [length_txs, List.length_zip, Nat.min_eq_left hinv.built.length_le] at hle
    rw [hseq, nextSeqNo_eq n]
    exact Nat.ne_of_lt (Nat.lt_succ_of_le hle)
  have hpv : PaysFor txn.inputs txn.outputs fee (point n).view := returns_sumInputs_uncommitted false hp
  obtain ⟨-, -, hcoins⟩ := returns_sumInputs hh.cache hn hpv
  constructor
  · rintro ⟨s, hs⟩ i hi
    obtain ⟨k, hk⟩ := (hh.update (fun hm => absurd hm hu) ho hfresh
      (returns_update_uncommitted false hs).1).1 i hi
    rw [hk]
    rfl
  · intro hb
    have hint : ∀ i ∈ txn.inputs, ∃ k : ℕ, i.seqNo = .int k := fun i hi =>
      ⟨(inputName i).2, by rw [← (hcoins i hi).2]; exact PyInt.isBool_eq_false.mp (hb i hi)⟩
    obtain ⟨U', hU'⟩ := Spends.exists (nodup_inputName hn fun i hi => (hcoins i hi).2)
      (U := unspent (txs ((point n).txns.zip g.labels))) fun k hk => by
        obtain ⟨i, hi, rfl⟩ := List.mem_map.mp hk
        exact (hcoins i hi).1
    obtain ⟨v, hv⟩ := exists_update (c := false) hh (fun hm => absurd hm hu) ho hfresh hint hU'
    obtain ⟨s, hs, -⟩ := exists_update_uncommitted (s := n.stores) hv
    exact ⟨s, hs⟩

/-! ### Transfers -/

/-- The handlers of transfers. That of the fees plugin leaves the check to the authorizer, which has to
be consulted. -/
def Checked (auths : List AuthConstraint) : Handler → Prop
  | .xfer | .xfer100 => True
  | .xferFee => auths ≠ []
  | _ => False

variable {r : Request} {ins : List Input} {outs : List OutputSpec} {sigs : List Json}
  {auths : List AuthConstraint} {hd : Handler}

theorem paysFor_of_checked (hop : r.operation = .xfer ins outs sigs) (hck : Checked auths hd)
    (hval : Returns (dynamicValidation r auths hd) n () n) : ∃ fee, PaysFor ins outs fee n.stores := by
  have hplain : Returns (onStores (doValidateInputsOutputs ins outs) >>= fun _ => validate r auths)
      n () n → ∃ fee, PaysFor ins outs fee n.stores := by
    simp only [returns_bind, returns_onStores]
    rintro ⟨_, _, ⟨s, hs, rfl⟩, -⟩
    obtain rfl := (readOnly_doValidate _ _).eq hs
    exact ⟨0, paysFor_of_doValidate hs⟩
  unfold Checked at hck
  split at hck
  · simp only [dynamicValidation, hop] at hval
    exact hplain hval
  · simp only [dynamicValidation, hop] at hval
    exact hplain hval
  · obtain ⟨c, hc⟩ := List.exists_mem_of_ne_nil _ hck
    simp only [dynamicValidation] at hval
    exact ⟨_, paysFees_of_xfer hop hval c hc⟩
  · exact hck.elim

/-- What a handler of transfers updates the state by. -/
def updaterOf : Handler → Updater
  | .xfer100 => .xfer100
  | _ => .xfer

/-- The handler appends the transaction and updates the state. -/
theorem exists_applyHandler_iff (hop : r.operation = .xfer ins outs sigs) (hck : Checked auths hd)
    {time : ℤ} : (∃ n', Returns (applyHandler r time none hd) n none n') ↔
      ∃ s, Returns (update (updaterOf hd) (xferTxn r ins outs sigs time (nextSeqNo n)) false)
        n.stores () s := by
  have hret : ∀ {upd : TokenTxn → Bool → Py (Stores P) Unit}, (∃ n', Returns (do
      applyTokenRequest (xferTxn r ins outs sigs time) upd
      pure (none : Option DomainTxn)) n none n') ↔
      ∃ s, Returns (upd (xferTxn r ins outs sigs time (nextSeqNo n)) false) n.stores () s := by
    intro upd
    simp only [returns_bind, returns_applyTokenRequest, returns_pure]
    constructor
    · rintro ⟨_, _, _, ⟨s, hs, rfl⟩, -, rfl⟩
      exact ⟨s, hs⟩
    · rintro ⟨s, hs⟩
      exact ⟨_, (), _, ⟨s, hs, rfl⟩, trivial, rfl⟩
  unfold Checked at hck
  split at hck
  · simp only [applyHandler, hop]
    exact hret
  · simp only [applyHandler, hop]
    exact hret
  · simp only [applyHandler, hop]
    exact hret
  · exact hck.elim

/-- **Accepted transfers.** -/
theorem xfer_carriedOut_iff (h : Reach ok n g) (hop : r.operation = .xfer ins outs sigs)
    (hv : ValidXfer P ins outs sigs) (hck : Checked auths hd)
    (hval : Returns (dynamicValidation r auths hd) n () n) {time : ℤ} :
    (∃ n', Returns (applyHandler r time none hd) n none n') ↔ NoBoolean ins := by
  obtain ⟨fee, hp⟩ := paysFor_of_checked hop hck hval
  rw [exists_applyHandler_iff hop hck]
  have hu : updaterOf hd ≠ .mint := by
    unfold updaterOf
    split <;> nofun
  exact exists_update_iff h hu rfl hv.1.2 hv.2.1.2 hp

/-! ### Fee sections -/

/-- **Accepted fee sections.** -/
theorem fees_carriedOut_iff (h : Reach ok n g) {typ : Str} {section_ : FeesSection} {c : AuthConstraint}
    {msg : Str} (hop : r.operation = .domain typ) (ht : typ ∈ P.domainTypes)
    (hf : r.fees = some section_) (hv : ValidFees P section_)
    (hauth : Returns (authorize P n.configFees r c) n.stores (true, msg) n.stores) {prev : DomainTxn} :
    (∃ n', Returns (applyRequest r prev) n () n') ↔ NoBoolean section_.inputs := by
  have htyp : txnType P r.operation ≠ xferPublic := by
    rw [hop]
    exact fun he => P.types_disjoint _ ht (by rw [show typ = xferPublic from he]; simp)
  have hp := paysFor_of_authorize htyp hauth
  rw [hf] at hp
  have hfees := returns_calculateFees_of_sum hf hp
  have hiff : ∀ z, (∃ s, Returns (update .fees (feesTxn P section_ prev z (nextSeqNo n)) false) n.stores () s) ↔
      NoBoolean section_.inputs := fun _ => exists_update_iff h nofun rfl hv.1.1.2 hv.2.1.1.2 hp
  simp only [returns_applyRequest hf]
  constructor
  · rintro ⟨_, z, s, -, hs, -⟩
    exact (hiff z).mp ⟨s, hs⟩
  · intro hb
    obtain ⟨s, hs⟩ := (hiff _).mpr hb
    exact ⟨_, _, s, hfees, hs, rfl⟩

/-- **What validation accepts is carried out, unless a boolean is among the numbers.** In a reachable
state, a transfer that has passed its static and its dynamic validation is applied without an exception
exactly when none of its inputs has a boolean number, and so is a fee section that has passed the field
check and the authorizer. -/
theorem carriedOut_iff (h : Reach ok n g) :
    (∀ {op : List (Str × Json)} {r : Request} {ins : List Input} {outs : List OutputSpec}
      {sigs : List Json} {hd : Handler} {auths : List AuthConstraint} {time : ℤ},
      xferStaticValidation P op = .ok () → readXfer op = some r.operation →
      r.operation = .xfer ins outs sigs → Checked auths hd →
      Returns (dynamicValidation r auths hd) n () n →
      ((∃ n', Returns (applyHandler r time none hd) n none n') ↔ NoBoolean ins)) ∧
    (∀ {raw : Json} {r : Request} {typ : Str} {section_ : FeesSection} {c : AuthConstraint} {msg : Str}
      {prev : DomainTxn},
      txnFeesField P raw = valid → r.fees = readFees raw → r.fees = some section_ →
      r.operation = .domain typ → typ ∈ P.domainTypes →
      Returns (authorize P n.configFees r c) n.stores (true, msg) n.stores →
      ((∃ n', Returns (applyRequest r prev) n () n') ↔ NoBoolean section_.inputs)) := by
  constructor
  · intro op r ins outs sigs hd auths time hstatic hread hop hck hval
    obtain ⟨_, _, _, hx, hv⟩ := xferStaticValidation_eq_ok.mp hstatic
    obtain ⟨rfl, rfl, rfl⟩ : _ ∧ _ ∧ _ := by
      simpa using (Option.some.inj (hx.symm.trans hread)).trans hop
    exact xfer_carriedOut_iff h hop hv hck hval
  · intro raw r typ section_ c msg prev hvalid hread hf hop ht hauth
    obtain ⟨s, hs, hv⟩ := txnFeesField_eq_valid.mp hvalid
    obtain rfl : s = section_ := Option.some.inj ((hs.symm.trans hread.symm).trans hf)
    exact fees_carriedOut_iff h hop ht hf hv hauth

/-! ### A transfer of an output whose number is given as a boolean -/

/-- 100 tokens are minted for the first address. -/
def minted : List Action := [mint 100, .close .token]

theorem minted_isSome : (run ref minted).isSome := by decide +kernel

/-- The node that holds them. -/
def mintedNode : Node ref := ((run ref minted).get minted_isSome).1

theorem reach_mintedNode : Reach (fun _ => True) mintedNode ((run ref minted).get minted_isSome).2 :=
  reach_run (Option.some_get minted_isSome).symm fun _ _ => trivial

/-- A transfer of the output, as it is sent: the number of the output is 1. -/
def operation (seqNo : Json) : List (Str × Json) :=
  [("type", .str xferPublic), ("inputs", .list [.obj [("address", .str alice.address), ("seqNo", seqNo)]]),
    ("outputs", .list [.obj [("address", .str bob.address), ("amount", .int 100)]]),
    ("signatures", .list [.str signature])]

/-- The request, once it has been read. -/
def requestOf (seqNo : PyInt) : Request :=
  request (.xfer [⟨alice.address, seqNo⟩] [⟨bob.address, .int 100⟩] [.str signature]) none

theorem carriedOut_iff_one :
    (∃ n', Returns (applyHandler (requestOf (.int 1)) 0 none .xferFee) mintedNode none n') ↔
      NoBoolean [⟨alice.address, .int 1⟩] := by
  have hstatic : xferStaticValidation ref (operation (.int 1)) = .ok () := by decide +kernel
  have hdynamic : Returns (dynamicValidation (requestOf (.int 1)) [asks "xfer"] .xferFee) mintedNode ()
      mintedNode :=
    Prod.ext (show (dynamicValidation (requestOf (.int 1)) [asks "xfer"] .xferFee mintedNode).1 = .ok ()
      by decide +kernel) (readOnly_dynamicValidation _ _ _ _)
  exact (carriedOut_iff reach_mintedNode).1 hstatic rfl rfl (List.cons_ne_nil _ _) hdynamic

/-- With a boolean in the place of the number, the transfer is accepted all the same, and applying it
raises an exception. -/
theorem not_carriedOut_true : Reach (fun _ => True) mintedNode ((run ref minted).get minted_isSome).2 ∧
    xferStaticValidation ref (operation (.bool true)) = .ok () ∧
    readXfer (operation (.bool true)) = some (requestOf (.bool true)).operation ∧
    Returns (dynamicValidation (requestOf (.bool true)) [] .xfer) mintedNode () mintedNode ∧
    Returns (dynamicValidation (requestOf (.bool true)) [asks "xfer"] .xferFee) mintedNode () mintedNode ∧
    (¬∃ n', Returns (applyHandler (requestOf (.bool true)) 0 none .xfer) mintedNode none n') ∧
    ¬∃ n', Returns (applyHandler (requestOf (.bool true)) 0 none .xferFee) mintedNode none n' := by
  have hvalid : ∀ {auths : List AuthConstraint} {hd : Handler},
      (dynamicValidation (requestOf (.bool true)) auths hd mintedNode).1 = .ok () →
      Returns (dynamicValidation (requestOf (.bool true)) auths hd) mintedNode () mintedNode :=
    fun h => Prod.ext h (readOnly_dynamicValidation _ _ _ _)
  have hraised : ∀ {hd : Handler},
      (applyHandler (requestOf (.bool true)) 0 none hd mintedNode).1.isOk = false →
      ¬∃ n', Returns (applyHandler (requestOf (.bool true)) 0 none hd) mintedNode none n' := by
    rintro hd h ⟨n', hn'⟩
    rw [hn'] at h
    cases h
  exact ⟨reach_mintedNode, by decide +kernel, rfl, hvalid (by decide +kernel), hvalid (by decide +kernel),
    hraised (by decide +kernel), hraised (by decide +kernel)⟩

end TokenPlugin.Properties.CarriedOut
