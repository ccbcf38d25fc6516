import TokenPlugin.Runs

/-! # Replaying a ledger

When a node catches up, or rebuilds a state that is gone, each transaction of the ledger goes through
`update_state` of the handler of its type, straight into the stores. A FEES transaction is replayed by a
handler of its own, which does what `DomainFeeHandler` did when the transaction was applied. -/

namespace TokenPlugin.Replay

open Python Token.Types Token.UtxoCache Token.Handlers Token.Views Token.Coins Token.Updates Token.History
open Database Node Steps Effects Invariant Applying Runs Lib.Utxo Lib.Program

variable {S : Type} [TokenStores S]

/-- `update_state` of the handlers of token transactions. -/
def updateState : Handler → TokenTxn → Bool → Py S Unit
  | .mint, txn, isCommitted => mintUpdateState txn isCommitted
  | .xfer, txn, isCommitted | .xferFee, txn, isCommitted | .feeTxnCatchup, txn, isCommitted =>
    xferUpdateState txn isCommitted
  | .xfer100, txn, isCommitted => xfer100UpdateState txn isCommitted
  | _, _, _ => pure ()

/-- A transaction goes through the handlers of its type. -/
def replayTxn (P : Platform) (isCommitted : Bool) (txn : TokenTxn) : Py S Unit :=
  ((registry P).handlersOf txn.type).forM fun h => updateState h txn isCommitted

/-- The transactions of a ledger, one by one. -/
def replay (P : Platform) (txns : List TokenTxn) (isCommitted : Bool) : Py S Unit :=
  txns.forM (replayTxn P isCommitted)

variable {P : Platform} {c c' : Bool} {s t : S} {e : Entry} {n : ℕ}

/-! ### One transaction -/

/-- What a transaction is replayed by. -/
def replayer : Updater → Updater
  | .mint => .mint
  | _ => .xfer

/-- The registered handler of the type replays the transaction. -/
theorem returns_replayTxn (ok : EntryOk n e) : Returns (replayTxn P c e.1) s () t ↔
    Returns (update (replayer e.2.updater) e.1 c) s () t := by
  have hone : ∀ h : Handler, Returns ([h].forM fun h => updateState h e.1 c) s () t ↔
      Returns (updateState h e.1 c) s () t := fun h => by
    simp only [returns_forM_cons, returns_forM_nil, exists_eq_right]
  unfold replayTxn
  rw [ok.type]
  cases e.2.updater with
  | mint => rw [txnTypeOf, registry_mint]; exact hone .mint
  | xfer | xfer100 => rw [txnTypeOf, registry_xfer]; exact hone .xferFee
  | fees => rw [txnTypeOf, registry_feeTxn]; exact hone .feeTxnCatchup

/-- Replaying does what applying did, unless a handler of version 1.0.0 had applied it. -/
theorem returns_replayTxn_of_ne (ok : EntryOk n e) (hu : e.2.updater ≠ .xfer100) :
    Returns (replayTxn P c e.1) s () t ↔ Returns (update e.2.updater e.1 c) s () t := by
  rw [returns_replayTxn ok]
  cases hup : e.2.updater with
  | mint | xfer => rfl
  | xfer100 => exact absurd hup hu
  | fees => exact returns_whileUpdatingState

theorem replay_append {xs ys : List TokenTxn} : Returns (replay P (xs ++ ys) c) s () t ↔
    ∃ u, Returns (replay P xs c) s () u ∧ Returns (replay P ys c) u () t :=
  returns_forM_append

/-! ### Replaying on stores and on their view -/

theorem sim_replayTxn {T : Type} [TokenStores T] {R : S → T → Prop} (h : StoresRel R c c')
    (txn : TokenTxn) : Sim R (replayTxn P c txn) (replayTxn P c' txn) := by
  refine sim_forM fun hd => ?_
  cases hd with
  | mint => exact sim_update h .mint txn
  | xfer | xferFee | feeTxnCatchup => exact sim_update h .xfer txn
  | xfer100 => exact sim_update h .xfer100 txn
  | indy | setFees | domainFee | authRuleFee | authRulesFee => exact sim_pure ()

theorem sim_replay {T : Type} [TokenStores T] {R : S → T → Prop} (h : StoresRel R c c')
    (txns : List TokenTxn) : Sim R (replay P txns c) (replay P txns c') :=
  sim_forM fun txn => sim_replayTxn h txn

/-- What can be replayed on the direct view can be replayed on the stores. -/
theorem exists_replay_direct {s : Stores P} {v : View} {txns : List TokenTxn}
    (h : Returns (replay P txns c) (direct s) () v) :
    ∃ s', Returns (replay P txns true) s () s' ∧ direct s' = v := by
  obtain ⟨s', hs', hv, -⟩ := (sim_replay (rel_direct s c) txns).returns_of ⟨rfl, rfl⟩ h
  exact ⟨s', hs', hv⟩

/-- What is replayed on the stores, seen on the direct view. -/
theorem returns_replay_direct {s s' : Stores P} {txns : List TokenTxn} (c : Bool)
    (h : Returns (replay P txns true) s () s') :
    Returns (replay P txns c) (direct s) () (direct s') := by
  obtain ⟨v, hv, rfl, -⟩ := (sim_replay (rel_direct s c) txns).returns ⟨rfl, rfl⟩ h
  exact hv

theorem direct_new : direct (.new : Stores P) = .empty := by
  refine View.ext (funext fun k => P.state.lookup_new k) ?_
  show (P.cache.contents P.cache.new).store = _
  rw [P.cache.contents_new]
  rfl

/-! ### Replaying from the beginning -/

/-- The committed transactions of the token ledger. -/
def ledgerTxns (n : Node P) : List TokenTxn := (P.ledger.contents n.tokenLedger).committed

/-- No transaction was applied by a handler of version 1.0.0. -/
def NotOld (e : Entry) (_ : View) : Prop := e.2.updater ≠ .xfer100

/-- The view of two stores does not depend on how they are written. -/
theorem update_view (u : Updater) (txn : TokenTxn) (c c' : Bool) :
    (update u txn c : Py View Unit) = update u txn c' := by
  cases u <;> rfl

/-- **The stores that a ledger built are built again** when it is replayed. -/
theorem returns_replay_built {L : List Entry} {v : View} (h : Built NotOld L v) :
    Returns (replay P (L.map Prod.fst) c) .empty () v := by
  induction h with
  | nil => exact returns_forM_nil.mpr rfl
  | @snoc L v v' e h ok hq hr ih =>
    rw [List.map_append]
    refine replay_append.mpr ⟨v, ih, returns_forM_cons.mpr ⟨v', ?_, returns_forM_nil.mpr rfl⟩⟩
    rw [returns_replayTxn_of_ne ok hq, update_view _ _ _ false]
    exact hr

theorem returns_replay_builtAt {labels : List Label} {x : Point P} (h : BuiltAt NotOld labels x) :
    Returns (replay P x.txns c) .empty () x.view := by
  have hfst : (x.txns.zip labels).map Prod.fst = x.txns := List.map_fst_zip h.length_le
  rw [← hfst]
  exact returns_replay_built h.built

/-! ### Replaying beside a cache that was kept -/

/-- **A ledger replayed on a state that is gone and a cache that was kept** puts the coins of the cache
that no transaction spends in front of those that the transactions leave unspent. -/
theorem exists_replay_kept {Q : Entry → View → Prop} {L : List Entry} {w v : View} {F : List Coin}
    (h : Built Q L w) (hF : ∀ k ∈ spent (txs L), k ∉ F.map Coin.key) (hv : Holds v F []) :
    ∃ v', Returns (replay P (L.map Prod.fst) c) v () v' ∧
      Holds v' (F ++ unspent (txs L)) (unspent (txs L)) := by
  induction h with
  | nil => exact ⟨v, returns_forM_nil.mpr rfl, by simpa [txs, unspent] using hv⟩
  | @snoc L w w' e h ok _ hr ih =>
    have hkept : ∀ k ∈ (toTx e.1).ins, k ∉ F.map Coin.key := fun k hk => hF k (by
      rw [txs_append, show txs [e] = [toTx e.1] from rfl, spent_append]
      exact List.mem_append_right _ hk)
    obtain ⟨v₁, hv₁, hh₁⟩ := ih fun k hk => hF k (by
      rw [txs_append, show txs [e] = [toTx e.1] from rfl, spent_append]
      exact List.mem_append_left _ hk)
    obtain ⟨hc, hh⟩ := h.holds
    obtain ⟨hint, U', hs, -, -⟩ := ok.spends hc hh hr
    have hfresh : ∀ d ∈ unspent (txs L), d.seqNo ≠ e.1.seqNo := fun d hd => by
      have hle := (hc.seqNo_le hd).2
      rw [length_txs] at hle
      rw [ok.seqNo]
      omega
    have hm : replayer e.2.updater = .mint → e.1.inputs = [] := fun hu => ok.mint (by
      cases hup : e.2.updater <;> simp_all [replayer])
    obtain ⟨v', hv'⟩ := exists_update (c := c) hh₁ hm ok.nodup hfresh hint (hs.append_right hkept)
    obtain ⟨-, W', hW', hh'⟩ := hh₁.update hm ok.nodup hfresh hv'
    refine ⟨v', ?_, ?_⟩
    · rw [List.map_append]
      refine replay_append.mpr ⟨v₁, hv₁, returns_forM_cons.mpr ⟨v', ?_, returns_forM_nil.mpr rfl⟩⟩
      exact (returns_replayTxn ok).mpr hv'
    · have hWeq : W' = F ++ U' := by rw [hW'.eq, (hs.append_right hkept).eq]
      rw [txs_append, show txs [e] = [toTx e.1] from rfl, unspent_append, length_txs, ← ok.seqNo,
        ← List.append_assoc, ← hs.eq, ← hWeq]
      rw [← hs.eq] at hh'
      exact hh'

end TokenPlugin.Replay
