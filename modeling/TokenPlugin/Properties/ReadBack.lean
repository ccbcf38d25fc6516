import TokenPlugin.Properties.Pages
import TokenPlugin.Token.Shown

/-! # Reading amounts back

An amount passes a validator that lets JSON booleans through, and is written with `str`. What was
written is read back by three parsers of integers, so an amount `True` cannot be read back, and hides
every other output of the addresses it is listed with. -/

namespace TokenPlugin.Properties.ReadBack

open Python Token.Types Token.UtxoCache Token.TokenUtils Token.Handlers Token.Amounts Token.Views
open Token.Pairs Token.Coins Token.Updates Token.Sums Token.History Token.GetUtxoHandler
open Token.Listing Token.Replies Token.Shown Database Messages.Fields Properties.Pages
open Lib.Text Lib.Utxo Lib.Paging Lib.Program Reference

variable {P : Platform} {N : ReadNode P} {s s' : Stores P} {c : Bool} {L : List Entry}
  {outs : List OutputSpec}

/-- The outputs come from a value that `PublicOutputsField` accepts. -/
def AcceptedOutputs (P : Platform) (outs : List OutputSpec) : Prop :=
  ∃ maxLength v, publicOutputsField P maxLength v = valid ∧ readAll readOutput v = some outs

theorem AcceptedOutputs.valid (h : AcceptedOutputs P outs) : ValidOutputs P outs := by
  obtain ⟨hi, v, hv, hr⟩ := h
  obtain ⟨os, hos, hvalid, -⟩ := publicOutputsField_eq_valid.mp hv
  obtain rfl := Option.some.inj (hr.symm.trans hos)
  exact hvalid

/-- The output that transaction number `n` paid can be read back: it is listed for its address, its sum
is the number that was counted for it, GET_UTXO answers for the address, and shows it where no other
stored address begins with its address. -/
structure ReadsBack (N : ReadNode P) (s : Stores P) (c : Bool) (n : ℕ) (o : OutputSpec) : Prop where
  listed : ∃ l, Returns (getUnspentOutputs o.address c) s l s ∧ outputOf o.address n o.amount.val ∈ l
  summed : Returns (sumInputs [⟨o.address, .int n⟩] c) s (sumOutputs [o]) s
  answered : ∀ identifier reqId start, staticValidation P (operation o.address start) = .ok () →
    ∃ reply, getResult N s.tokenState ⟨identifier, reqId, operation o.address start⟩ = .ok reply
  shown : Alone (heldAt s.tokenState) o.address → ∀ identifier reqId, ∃ start reply outputs,
    staticValidation P (operation o.address start) = .ok () ∧
    getResult N s.tokenState ⟨identifier, reqId, operation o.address start⟩ = .ok reply ∧
    Json.field reply "outputs" = some (.list outputs) ∧
    ofOutput (outputOf o.address n o.amount.val) ∈ outputs

/-- No amount of the addresses that begin with the one given is a boolean. -/
def Unpoisoned (U : List Coin) (a : Str) : Prop := ∀ d ∈ U, a <+: d.addr → d.amount.isBool = false

instance (U : List Coin) (a : Str) : Decidable (Unpoisoned U a) :=
  inferInstanceAs (Decidable (∀ d ∈ U, _ → _))

/-! ### The parts -/

section Parts
variable {U : List Coin} {d : Coin}

theorem state_seen (c : Bool) (s : Stores P) : (seen c s).state = heldAt s.tokenState := by
  cases c <;> rfl

theorem listed_of_holds (hh : Holds (seen c s) U U) (hd : d ∈ U) (hu : Unpoisoned U d.addr) :
    ∃ l, Returns (getUnspentOutputs d.addr c) s l s ∧ outputOf d.addr d.seqNo d.amount.val ∈ l := by
  have hsim : Sim (fun (s : Stores P) v => seen c s = v) (getUnspentOutputs d.addr c)
      (getUnspentOutputs d.addr c) :=
    (sim_getAmounts (rel_seen c c) _ _).bind fun _ => sim_ofExcept _
  have hint : ∀ p ∈ held U d.addr, p.2.isBool = false := by
    intro p hp
    obtain ⟨e, he, rfl⟩ := List.mem_map.mp hp
    obtain ⟨he, ha⟩ := List.mem_filter.mp he
    exact hu e he (by rw [of_decide_eq_true ha])
  have hview : Returns (getUnspentOutputs d.addr c) (seen c s)
      ((held U d.addr).map fun p => ⟨d.addr, .int p.1, some (.int p.2.val)⟩) (seen c s) := by
    unfold getUnspentOutputs
    have hok : amountsOf d.addr true ((seen c s).cache d.addr) =
        .ok ⟨d.addr, flat ((held U d.addr).map textPair)⟩ := by
      rw [amountsOf_true]
      exact init_of_pairs (hh.cache.pairsAt_eq _)
    exact returns_bind.mpr ⟨_, _, returns_getAmounts.mpr ⟨hok, rfl⟩,
      returns_ofExcept.mpr ⟨asOutputList_textPair hint, rfl⟩⟩
  obtain ⟨t, ht, -⟩ := hsim.returns_of rfl hview
  have hread : ReadOnly (getUnspentOutputs d.addr c : Py (Stores P) _) :=
    (readOnly_getAmounts _ _ _).bind fun _ => readOnly_ofExcept _
  obtain rfl := hread.eq ht
  refine ⟨_, ht, List.mem_map.mpr ⟨(d.seqNo, d.amount), ?_, rfl⟩⟩
  exact List.mem_map.mpr ⟨d, List.mem_filter.mpr ⟨hd, by simp⟩, rfl⟩

theorem summed_of_holds (hh : Holds (seen c s) U U) (hd : d ∈ U) (hb : d.amount.isBool = false) :
    Returns (sumInputs [⟨d.addr, .int d.seqNo⟩] c) s d.amount.val s := by
  have hamount : amountOf s c d.addr d.seqNo = some d.amount.val := by
    rw [← amountOf_coin (c := c) hh.cache hh.nodup hd hb]
    unfold amountOf
    rw [(rel_seen c c).cacheGet s _ rfl]
  exact (returns_sumInputs_iff (by simp)).mpr ⟨rfl, by simp [hamount], by simp [hamount]⟩

theorem answered_of_holds {identifier : Str} {reqId : ℤ} {start : Option PyInt}
    (hm : TokenState (heldAt s.tokenState)) (hh : Holds (seen c s) U U) {a : Str} (ha : ':' ∉ a) :
    (∃ reply, getResult N s.tokenState ⟨identifier, reqId, operation a start⟩ = .ok reply) ↔
      Unpoisoned U a := by
  have hstate := hh.state
  rw [state_seen] at hstate
  have hloop := exists_addOutputs_iff hm
    (entriesOf_entries N.reads (P.state.headHash s.tokenState) a) ha
  have hpoison : (∀ b n x, a <+: b → ¬Unspent (heldAt s.tokenState) b n (.bool x)) ↔
      Unpoisoned U a := by
    simp only [unspent_iff hstate]
    constructor
    · rintro h ⟨b, n, x | x⟩ hd hpre
      · rfl
      · exact absurd hd (h b n x hpre)
    · intro h b n x hpre hd
      exact absurd (h _ hd hpre) (by simp)
  rw [← hpoison, ← hloop]
  simp only [getResult_eq_ok_iff (r := ⟨identifier, reqId, operation a start⟩) field_address]
  exact ⟨fun ⟨_, l, hl, _⟩ => ⟨l, hl⟩, fun ⟨l, hl⟩ => ⟨_, l, hl, rfl⟩⟩

/-- A request from the number of the output on shows it, or a request without one where it is the
first. -/
theorem shown_of_holds (hm : TokenState (heldAt s.tokenState)) (hh : Holds (seen c s) U U)
    (hvalid : ValidAddress P d.addr) (hd : d ∈ U) (hu : Unpoisoned U d.addr)
    (halone : Alone (heldAt s.tokenState) d.addr) (identifier : Str) (reqId : ℤ) :
    ∃ start reply outputs, staticValidation P (operation d.addr start) = .ok () ∧
      getResult N s.tokenState ⟨identifier, reqId, operation d.addr start⟩ = .ok reply ∧
      Json.field reply "outputs" = some (.list outputs) ∧
      ofOutput (outputOf d.addr d.seqNo d.amount.val) ∈ outputs := by
  have hstate := hh.state
  rw [state_seen] at hstate
  obtain ⟨l, hl⟩ := exists_holding hstate hh.nodup d.addr
  have hp : (d.seqNo, d.amount) ∈ l := (hl.mem _ _).mpr ((unspent_iff hstate).mpr hd)
  have hr : Readable l := by
    rintro ⟨n, x⟩ hx
    exact hu _ ((unspent_iff hstate).mp ((hl.mem _ _).mp hx)) (List.prefix_refl _)
  have hpos : 1 ≤ (PyInt.int (d.seqNo : ℤ)).val := by
    obtain ⟨b, n, -, hn, hkey, -⟩ := hm.entry _ _ ((unspent_iff hstate).mpr hd)
    have : d.seqNo = n := by simpa using (createStateKey_inj hkey).2
    simp only [PyInt.val_int]
    omega
  -- the page that starts at the output
  obtain ⟨start, hstart, hs, t, ht⟩ : ∃ start : Option PyInt, (∀ f ∈ start, 1 ≤ f.val) ∧
      StartsInside start l ∧ ∃ t, since start l = (d.seqNo, d.amount) :: t := by
    by_cases hfirst : ∀ q ∈ l, d.seqNo ≤ q.1
    · exact ⟨none, by simp, by rintro f ⟨⟩, hl.ascending.exists_eq_cons hp hfirst⟩
    · push Not at hfirst
      obtain ⟨q, hq, hlt⟩ := hfirst
      refine ⟨some (.int d.seqNo), by simpa using hpos, ?_, ?_⟩
      · rintro f ⟨⟩
        exact Or.inr ⟨q, hq, by simpa using hlt⟩
      · refine (hl.ascending.filter _).exists_eq_cons (List.mem_filter.mpr ⟨hp, by simp⟩) ?_
        intro y hy
        simpa using (List.mem_filter.mp hy).2
  have hpage := isPage_attach (N := N) (r := ⟨identifier, reqId, operation d.addr start⟩) hm hl
    (since_subset start l) rfl (stateProof N s.tokenState d.addr)
  refine ⟨start, _, _, staticValidation_eq_ok.mpr ⟨hvalid, hstart⟩,
    (getResult_eq_ok hm hvalid.colon_notMem halone hl rfl).mpr ⟨hr, ?_⟩, hpage.outputs, ?_⟩
  · rw [startAt_of_startsInside hl.ascending hs hstart]
  · rw [ht]
    exact List.mem_cons_self

end Parts

/-! ### Accepted outputs -/

/-- **Which accepted amounts can be read back.** Adding the outputs of the next transaction never
raises; each of them can be read back exactly when no unspent output of an address that begins with one
of theirs, old or new, has a boolean amount. -/
theorem readsBack_iff (hb : Built (fun e _ => AcceptedOutputs P e.1.outputs) L (seen c s))
    (hacc : AcceptedOutputs P outs) :
    ∃ s', Returns (addNewOutputs outs (L.length + 1) c) s () s' ∧
      ((∀ o ∈ outs, ReadsBack N s' c (L.length + 1) o) ↔
        ∀ o ∈ outs, Unpoisoned (unspent (txs L) ++ create (L.length + 1) (payments outs)) o.address) := by
  obtain ⟨hc, hh⟩ := hb.holds
  have hfresh : ∀ d ∈ unspent (txs L), d.seqNo ≠ L.length + 1 := fun d hd => by
    have := (hc.seqNo_le hd).2
    rw [length_txs] at this
    omega
  obtain ⟨v, hv, hh'⟩ := hh.addNewOutputs (c := c) hacc.valid.2 hfresh
  obtain ⟨s', hs', rfl⟩ := (sim_addNewOutputs (rel_seen c c) outs (L.length + 1)).returns_of rfl hv
  have hm : TokenState (heldAt s'.tokenState) := by
    rw [← state_seen c]
    exact tokenState_addNewOutputs (tokenState_of_built hb fun e _ he o ho =>
      (he.valid.1 o ho).1.colon_notMem) (fun o ho => (hacc.valid.1 o ho).1.colon_notMem)
      (Nat.succ_pos _) hv
  refine ⟨s', hs', fun h o ho => ?_, fun h o ho => ?_⟩
  · have hcolon := (hacc.valid.1 o ho).1.colon_notMem
    have hreply := (h o ho).answered [] 0 none (staticValidation_eq_ok.mpr ⟨(hacc.valid.1 o ho).1, by simp⟩)
    exact (answered_of_holds hm hh' hcolon).mp hreply
  · have hd : (⟨o.address, L.length + 1, o.amount⟩ : Coin) ∈
        unspent (txs L) ++ create (L.length + 1) (payments outs) :=
      List.mem_append_right _ (List.mem_map.mpr ⟨_, List.mem_map.mpr ⟨o, ho, rfl⟩, rfl⟩)
    have hu := h o ho
    have hvalid := (hacc.valid.1 o ho).1
    refine ⟨listed_of_holds hh' hd hu, ?_, fun i r start hst =>
      (answered_of_holds hm hh' hvalid.colon_notMem).mpr hu, fun halone i r =>
      shown_of_holds hm hh' hvalid hd hu halone i r⟩
    have := summed_of_holds hh' hd (hu _ hd (List.prefix_refl _))
    simpa [sumOutputs] using this

/-! ### One output on empty stores -/

theorem seen_new (c : Bool) : seen c (Stores.new : Stores P) = .empty := by
  have hread : (P.cache.contents P.cache.new).read = fun _ => none := by
    rw [P.cache.contents_new]
    rfl
  have hstore : (P.cache.contents P.cache.new).store = fun _ => none := by rw [P.cache.contents_new]
  have hstate : P.state.lookup (P.state.headHash P.state.new) = fun _ => none :=
    funext P.state.lookup_new
  cases c
  · exact View.ext hstate hread
  · exact View.ext hstate hstore

/-- The value of the field `outputs` that pays an amount to the first address. -/
def paysAlice (amount : Json) : Json :=
  .list [.obj [("address", .str alice.address), ("amount", amount)]]

theorem acceptedOutputs_int : AcceptedOutputs ref [⟨alice.address, .int 5⟩] :=
  ⟨none, paysAlice (.int 5), by decide +kernel, by decide +kernel⟩

theorem acceptedOutputs_true : AcceptedOutputs ref [⟨alice.address, .bool true⟩] :=
  ⟨none, paysAlice (.bool true), by decide +kernel, by decide +kernel⟩

theorem readsBack_iff_int :
    ∃ s', Returns (addNewOutputs [⟨alice.address, .int 5⟩] 1 false) (Stores.new : Stores ref) () s' ∧
      ((∀ o ∈ [(⟨alice.address, .int 5⟩ : OutputSpec)], ReadsBack readNode s' false 1 o) ↔
        ∀ o ∈ [(⟨alice.address, .int 5⟩ : OutputSpec)],
          Unpoisoned (unspent (txs []) ++ create 1 (payments [⟨alice.address, .int 5⟩])) o.address) :=
  readsBack_iff (L := []) (s := Stores.new) (by rw [seen_new]; exact .nil) acceptedOutputs_int

/-- The amount `true` is accepted, and the address it was paid to can no longer be listed. -/
theorem not_readsBack_true : AcceptedOutputs ref [⟨alice.address, .bool true⟩] ∧
    ∃ s', Returns (addNewOutputs [⟨alice.address, .bool true⟩] 1 false) (Stores.new : Stores ref) () s' ∧
      ¬ReadsBack readNode s' false 1 ⟨alice.address, .bool true⟩ := by
  refine ⟨acceptedOutputs_true,
    (addNewOutputs [⟨alice.address, .bool true⟩] 1 false (Stores.new : Stores ref)).2,
    Prod.ext rfl rfl, fun h => ?_⟩
  obtain ⟨l, hl, -⟩ := h.listed
  have hraises : (getUnspentOutputs alice.address false (addNewOutputs
      [⟨alice.address, .bool true⟩] 1 false (Stores.new : Stores ref)).2).1.isOk = false := by
    decide +kernel
  rw [show getUnspentOutputs alice.address false _ = _ from hl] at hraises
  cases hraises

end TokenPlugin.Properties.ReadBack
