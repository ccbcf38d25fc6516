import TokenPlugin.Messages.ClientMessages
import TokenPlugin.Refinement

/-! # Only its owner spends an output

A node that lives on messages which were let in holds nothing on its token ledger that was not asked for:
the address of each input has signed the payment that the input is part of, with the outputs as they
stand on the ledger. An output whose owner signs nothing stays unspent. -/

namespace TokenPlugin.Properties.OwnerSigned

open Python Token.Types Token.Handlers Token.Coins Token.Updates Token.Views Token.History Database Node
open Steps Effects Invariant Applying Runs Replay Lifecycle Refinement Properties.CatchUp
open Token.ClientAuthnr Messages.Fields Messages.ClientMessages Fees.DomainFeeHandler
open Lib.Utxo Lib.Program Reference

variable {P : Platform} {S : Storage P} {core : ClientMessage → Except PyErr (List Json)}
  {n n' : Node P} {g g' : Trace P}

/-! ### What was signed -/

/-- What is signed beside an input and the outputs: the extra fields of a transfer, the payload digest
of the request that a fee section is part of. -/
def signedWith (m : ClientMessage) (typ : Str) : List Json :=
  if typ = xferPublic then
    extraFields ((Json.field m.operation "extra").getD .null) (m.taaAcceptance.getD .null)
  else [.str m.payloadDigest]

variable (P core) in
/-- A message that was let in asked for the transaction, and the addresses of the inputs have signed it. -/
def Authorised (t : TokenTxn) : Prop :=
  ∃ m outputs, accept P core m = .ok () ∧ t.reqId = m.reqId ∧
    OwnersSigned P t.inputs t.outputs outputs (signedWith m t.type)

variable (P core) in
/-- The step applies what a message that was let in stands for; so it is with every request for one of
the two ledgers. Transfers are of the present version. -/
def FromClient : Action → Prop
  | .apply r version _ _ => version ≠ .v100 ∧
      (ledgerOf r.operation ≠ none → ∃ m, accept P core m = .ok () ∧ m.read P = some r)
  | _ => True

theorem signedWith_xfer (m : ClientMessage) : signedWith m xferPublic =
    extraFields ((Json.field m.operation "extra").getD .null) (m.taaAcceptance.getD .null) := if_pos rfl

theorem signedWith_fee (m : ClientMessage) : signedWith m feeTxn = [.str m.payloadDigest] :=
  if_neg (by decide)

theorem current_of_fromClient {a : Action} (h : FromClient P core a) : Current a := by
  cases a with
  | apply => exact h.1
  | close | reject | commit | config => trivial

/-- **What a request appends was signed for.** -/
theorem admitted_authorised :
    Admitted P (FromClient P core) fun e v => Authorised P core e.1 ∧ NotOld e v := by
  intro r version auths time n n' hok hst heff txn htxn
  refine ⟨?_, admitted_notOld (current_of_fromClient hok) hst heff txn htxn⟩
  have hlast : ∀ {x y : TokenTxn}, tokenTxns n ++ [x] = tokenTxns n ++ [y] → x = y := fun h =>
    List.singleton_inj.mp (List.append_cancel_left h)
  cases heff with
  | mint hop hs =>
    rw [tokenTxns_withToken] at htxn
    obtain rfl := hlast htxn
    obtain ⟨m, hm, hread⟩ := hok.2 (by rw [hop]; exact Option.some_ne_none _)
    have hr := reads_of_read hread
    obtain ⟨outputs, ho⟩ := outputs_of_mint (hop ▸ hr.operation)
    exact ⟨m, outputs, hm, hr.reqId, ho, fun i hi => absurd hi List.not_mem_nil⟩
  | xfer hop hpays hplain hs =>
    rw [tokenTxns_withToken] at htxn
    obtain rfl := hlast htxn
    obtain ⟨m, hm, hread⟩ := hok.2 (by rw [hop]; exact Option.some_ne_none _)
    have hr := reads_of_read hread
    obtain ⟨outputs, ho⟩ := ownersSigned_of_xfer hm (hop ▸ hr.operation)
    exact ⟨m, outputs, hm, hr.reqId, (signedWith_xfer m).symm ▸ ho⟩
  | domain hop hf hfree =>
    rw [tokenTxns_withDomain] at htxn
    simp at htxn
  | domainFees hop hf hpays hfees hs =>
    rw [tokenTxns_withFees] at htxn
    obtain rfl := hlast htxn
    obtain ⟨m, hm, hread⟩ := hok.2 (by rw [hop]; exact Option.some_ne_none _)
    have hr := reads_of_read hread
    obtain ⟨outputs, ho⟩ := ownersSigned_of_fees hm (hf ▸ hr.fees)
    exact ⟨m, outputs, hm, hr.reqId, (signedWith_fee m).symm ▸ ho⟩
  | config hop fees =>
    have : tokenTxns { n with configFees := fees } = tokenTxns n := rfl
    rw [this] at htxn
    simp at htxn

theorem authorised_of_built {L : List Entry} {v : View}
    (h : Built (fun e w => Authorised P core e.1 ∧ NotOld e w) L v) :
    ∀ e ∈ L, Authorised P core e.1 := by
  induction h with
  | nil => exact fun e he => absurd he List.not_mem_nil
  | snoc _ _ hq _ ih =>
    intro e he
    rcases List.mem_append.mp he with he | he
    · exact ih e he
    · obtain rfl := List.mem_singleton.mp he
      exact hq.1

theorem inv_of_lived (h : Lived S (FromClient P core) n g) :
    Inv (fun e v => Authorised P core e.1 ∧ NotOld e v) n g :=
  lived_inv admitted_authorised (fun _ _ => And.right) h

/-- **The whole ledger was signed for**, whatever the node has gone through. -/
theorem authorised_of_lived (h : Lived S (FromClient P core) n g) :
    ∀ t ∈ tokenTxns n, Authorised P core t := by
  have hbuilt := (inv_of_lived h).built
  intro t ht
  have hmap : ((point n).txns.zip g.labels).map Prod.fst = tokenTxns n := List.map_fst_zip hbuilt.length_le
  rw [← hmap] at ht
  obtain ⟨e, he, rfl⟩ := List.mem_map.mp ht
  exact authorised_of_built hbuilt.built e he

/-! ### What happens to an output -/

variable (P core) in
/-- The owner of the output has signed for a transaction that spends it: the key of the address accepts a
signature of the input that names the output and of what the transaction pays. -/
structure Consents (c : Coin) (m : ClientMessage) (t : TokenTxn) : Prop where
  accepted : accept P core m = .ok ()
  reqId : t.reqId = m.reqId
  signed : ∃ i ∈ t.inputs, inputName i = c.key ∧ ∃ inp outputs, readInput inp = some i ∧
    readAll readOutput outputs = some t.outputs ∧
    SignedBy P c.addr (newData inp outputs (signedWith m t.type))

theorem exists_consents {c : Coin} {t : TokenTxn} (h : Authorised P core t)
    (hc : c.key ∈ t.inputs.map inputName) : ∃ m, Consents P core c m t := by
  obtain ⟨m, outputs, hm, hreq, hs⟩ := h
  obtain ⟨i, hi, hname⟩ := List.mem_map.mp hc
  obtain ⟨inp, hinp, hsigned⟩ := hs.signed i hi
  have haddr : i.address = c.addr := congrArg Prod.fst hname
  exact ⟨m, hm, hreq, i, hi, hname, inp, outputs, hinp, hs.pays, haddr ▸ hsigned⟩

/-- An output of a ledger is still unspent on a longer one, or a later transaction names it. -/
theorem unspent_or_named {L M : List TokenTxn} {c : Coin} (h : Chain (L.map toTx) (coinsOf L))
    (h' : Chain ((L ++ M).map toTx) (coinsOf (L ++ M))) (hc : c ∈ coinsOf L) :
    c ∈ coinsOf (L ++ M) ∨ ∃ t ∈ M, c.key ∈ t.inputs.map inputName := by
  obtain ⟨hcreated, hnot⟩ := h.mem_iff.mp hc
  by_cases hs : c.key ∈ spent (M.map toTx)
  · obtain ⟨tx, htx, hmem⟩ := List.mem_flatMap.mp hs
    obtain ⟨t, ht, rfl⟩ := List.mem_map.mp htx
    exact Or.inr ⟨t, ht, hmem⟩
  · refine Or.inl (h'.mem_iff.mpr ⟨?_, fun hm => ?_⟩)
    · obtain ⟨hpos, tx, htx, ho⟩ := mem_created.mp hcreated
      refine mem_created.mpr ⟨hpos, tx, ?_, ho⟩
      rw [List.map_append, List.getElem?_append_left (List.getElem?_eq_some_iff.mp htx).1, htx]
    · rw [List.map_append, spent, List.flatMap_append] at hm
      exact (List.mem_append.mp hm).elim hnot hs

/-- **An output leaves its owner only with a signature.** Of two nodes that live on messages which were
let in, let the second have committed what the first has. An output that the first has committed and that
is unspent there is unspent on the second as well, or a later transaction spends it for which its owner
has signed. -/
theorem keptOrSigned (h : Lived S (FromClient P core) n g) (h' : Lived S (FromClient P core) n' g')
    (hpre : ledgerTxns n <+: ledgerTxns n') {c : Coin} (hc : c ∈ coinsOf (ledgerTxns n)) :
    c ∈ coinsOf (tokenTxns n') ∨
      ∃ t ∈ (tokenTxns n').drop (ledgerTxns n).length, ∃ m, Consents P core c m t := by
  have hall : ledgerTxns n' <+: tokenTxns n' := List.prefix_append _ _
  obtain ⟨rest, hrest⟩ := hpre.trans hall
  have hchain := (holds_of_builtAt (inv_of_lived h).base).1
  have hchain' := (holds_of_builtAt (inv_of_lived h').built).1
  have hsigned := authorised_of_lived h'
  rw [show (point n').txns = tokenTxns n' from rfl, ← hrest] at hchain'
  rw [← hrest] at hsigned
  rw [← hrest, List.drop_left]
  refine (unspent_or_named hchain hchain' hc).imp_right ?_
  rintro ⟨t, ht, hmem⟩
  exact ⟨t, ht, exists_consents (hsigned t (List.mem_append_right _ ht)) hmem⟩

/-! ### A node that lives on messages -/

/-- A message of the first address. -/
def message (op : List (Str × Json)) (fees : Option Json) : ClientMessage where
  identifier := alice.verkey
  reqId := 1
  operation := op
  fees := fees
  taaAcceptance := none
  sigs := []
  payloadDigest := payloadDigest

def mintMessage : ClientMessage :=
  message [("type", .str mintPublic),
    ("outputs", .list [.obj [("address", .str alice.address), ("amount", .int 70)]])] none

def nymMessage : ClientMessage :=
  message [("type", .str nym)] (some (.list
    [.list [.obj [("address", .str alice.address), ("seqNo", .int 1)]],
      .list [.obj [("address", .str bob.address), ("amount", .int 30)]], .list [.str signature]]))

/-- An authenticator that lets everything in. -/
def letIn (_ : ClientMessage) : Except PyErr (List Json) := .ok []

def minted : List Action := [.config [("nym", 40)], mint 70, .close .token, .commit]

def paid : List Action := minted ++ [nymWithFees (section_ 1 30), .close .domain, .commit]

theorem fromClient_paid : ∀ a ∈ paid, FromClient ref letIn a := by
  have hmint : FromClient ref letIn (mint 70) :=
    ⟨by decide, fun _ => ⟨mintMessage, by decide +kernel, rfl⟩⟩
  have hnym : FromClient ref letIn (nymWithFees (section_ 1 30)) :=
    ⟨by decide, fun _ => ⟨nymMessage, by decide +kernel, rfl⟩⟩
  simp only [paid, minted, List.cons_append, List.nil_append, List.forall_mem_cons, List.not_mem_nil,
    false_imp_iff, implies_true, and_true]
  exact ⟨trivial, hmint, trivial, trivial, hnym, trivial, trivial⟩

theorem minted_isSome : (run ref minted).isSome := by decide +kernel
theorem paid_isSome : (run ref paid).isSome := by decide +kernel

def mintedNode : Node ref := ((run ref minted).get minted_isSome).1
def paidNode : Node ref := ((run ref paid).get paid_isSome).1

/-- The output that is minted. -/
def mintedCoin : Coin := ⟨alice.address, 1, .int 70⟩

/-- It is the fee section that spends it, and its owner has signed that. -/
theorem keptOrSigned_paid : ∃ t ∈ (tokenTxns paidNode).drop (ledgerTxns mintedNode).length,
    ∃ m, Consents ref letIn mintedCoin m t := by
  have hminted : ∀ a ∈ minted, FromClient ref letIn a := fun a ha =>
    fromClient_paid a (List.mem_append_left _ ha)
  have hm := lived_of_reach (S := storage) (reach_run (Option.some_get minted_isSome).symm hminted)
  have hp := lived_of_reach (S := storage) (reach_run (Option.some_get paid_isSome).symm fromClient_paid)
  have hc : mintedCoin ∈ coinsOf (ledgerTxns mintedNode) := by decide +kernel
  have hspent : mintedCoin ∉ coinsOf (tokenTxns paidNode) := by decide +kernel
  exact (keptOrSigned hm hp (by decide +kernel) hc).resolve_left hspent

end TokenPlugin.Properties.OwnerSigned
