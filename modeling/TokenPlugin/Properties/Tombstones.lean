import TokenPlugin.Reference

/-! # The old transfer handler and the new one

`XferHandler100` keeps the key of a spent input with an empty value, where `XferHandler` removes it.
Nothing else tells the two apart: whichever of them each transfer goes through, the same transactions
raise, the caches stay equal, the token states are equal up to empty values, and GET_UTXO shows the
same outputs. -/

namespace TokenPlugin.Properties.Tombstones

open Python Token.Types Token.UtxoCache Token.TokenUtils Token.Handlers Token.Views
open Token.GetUtxoHandler Token.Listing Token.Replies Database Messages.Fields
open Lib.Program Lib.Program.Prog Reference

variable {P : Platform}

/-! ### States that differ in empty values -/

/-- The key has no value, or an empty one. -/
def Blank (m : Str → Option Str) (k : Str) : Prop := (m k).getD [] = []

/-- The key of an output. -/
def IsKey (k : Str) : Prop := ∃ (a : Str) (s : PyInt), ':' ∉ a ∧ k = createStateKey a s

/-- Two states that differ in whether keys of spent outputs are kept. -/
def SameButBlank (m m' : Str → Option Str) : Prop :=
  ∀ k, m k = m' k ∨ (Blank m k ∧ Blank m' k ∧ IsKey k)

/-- Stores with equal caches, and states that differ in empty values. -/
def Same (s t : Stores P) : Prop :=
  P.cache.contents s.utxoCache = P.cache.contents t.utxoCache ∧
    SameButBlank (P.state.lookup (P.state.headHash s.tokenState))
      (P.state.lookup (P.state.headHash t.tokenState))

theorem SameButBlank.update {m m' : Str → Option Str} (h : SameButBlank m m') (k : Str)
    {x x' : Option Str} (hx : x = x' ∨ (x.getD [] = [] ∧ x'.getD [] = [] ∧ IsKey k)) :
    SameButBlank (Function.update m k x) (Function.update m' k x') := by
  intro j
  unfold Blank
  by_cases hj : j = k
  · subst hj
    simpa using hx
  · rw [Function.update_of_ne hj, Function.update_of_ne hj]
    exact h j

theorem storesRel_same (c : Bool) : StoresRel (Same (P := P)) c c where
  cacheGet := by
    rintro s t ⟨hc, -⟩ k
    simp [TokenStores.cacheGet, hc]
  cacheSet := by
    rintro s t ⟨hc, hm⟩ k x
    exact ⟨by simp [TokenStores.cacheSet, hc], hm⟩
  stateSet := by
    rintro s t ⟨hc, hm⟩ k x
    refine ⟨hc, ?_⟩
    simp only [TokenStores.stateSet, P.state.lookup_set]
    exact hm.update k (Or.inl rfl)
  stateRemove := by
    rintro s t ⟨hc, hm⟩ k
    refine ⟨hc, ?_⟩
    simp only [TokenStores.stateRemove, P.state.lookup_remove]
    exact hm.update k (Or.inl rfl)

/-! ### One transaction -/

/-- Whether a spent key is removed or kept makes no difference. -/
theorem sim_spendInput_same (c : Bool) {a : Str} (ha : ':' ∉ a) (n : PyInt) (r r' : Bool) :
    Sim (Same (P := P)) (spendInput a n c r) (spendInput a n c r') := by
  have hspend := sim_spendOutput (storesRel_same (P := P) c) ⟨a, n, none⟩
  have hkey : IsKey (createStateKey a n) := ⟨a, n, ha, rfl⟩
  have hstate : ∀ (g g' : Stores P → Stores P),
      (∀ s t, Same s t → Same (g s) (g' t)) →
      Sim (Same (P := P)) (modify (ε := PyErr) g >>= fun _ => spendOutput ⟨a, n, none⟩ c)
        (modify g' >>= fun _ => spendOutput ⟨a, n, none⟩ c) := fun g g' hg =>
    (sim_modify hg).bind fun _ => hspend
  unfold spendInput
  cases r <;> cases r'
  · exact hstate _ _ fun s t h => (storesRel_same c).stateSet s t h _ _
  · refine hstate _ _ fun s t ⟨hc, hm⟩ => ⟨hc, ?_⟩
    simp only [TokenStores.stateSet, TokenStores.stateRemove, P.state.lookup_set,
      P.state.lookup_remove]
    exact hm.update _ (Or.inr ⟨rfl, rfl, hkey⟩)
  · refine hstate _ _ fun s t ⟨hc, hm⟩ => ⟨hc, ?_⟩
    simp only [TokenStores.stateSet, TokenStores.stateRemove, P.state.lookup_set,
      P.state.lookup_remove]
    exact hm.update _ (Or.inr ⟨rfl, rfl, hkey⟩)
  · exact hstate _ _ fun s t h => (storesRel_same c).stateRemove s t h _

theorem sim_spendInputs_same (c : Bool) {ins : List Input} (h : ∀ i ∈ ins, ':' ∉ i.address)
    (r r' : Bool) : Sim (Same (P := P)) (spendInputs ins c r) (spendInputs ins c r') := by
  unfold spendInputs
  induction ins with
  | nil => exact sim_pure _
  | cons i ins ih =>
    exact (sim_spendInput_same c (h i List.mem_cons_self) _ r r').bind fun _ =>
      ih fun j hj => h j (List.mem_cons_of_mem _ hj)

/-- The two ways of applying a transaction: the same, or a transfer by either of its handlers. -/
def EitherWay (u u' : Updater) : Prop :=
  u = u' ∨ (u ∈ [Updater.xfer, .xfer100] ∧ u' ∈ [Updater.xfer, .xfer100])

/-- **One transaction.** -/
theorem sim_update_same (c : Bool) {txn : TokenTxn} {u u' : Updater}
    (h : ∀ i ∈ txn.inputs, ':' ∉ i.address) (hu : EitherWay u u') :
    Sim (Same (P := P)) (update u txn c) (update u' txn c) := by
  rcases hu with rfl | ⟨hu, hu'⟩
  · exact sim_update (storesRel_same c) u txn
  · have hboth : ∀ v ∈ [Updater.xfer, .xfer100],
        (update v txn c : Py (Stores P) Unit) = updateStateWith v.removeSpent txn c := by
      intro v hv
      rcases List.mem_cons.mp hv with rfl | hv
      · rfl
      · rw [List.mem_singleton.mp hv]; rfl
    rw [hboth u hu, hboth u' hu']
    exact sim_whileUpdatingState ((sim_spendInputs_same c h _ _).bind fun _ =>
      sim_addNewOutputs (storesRel_same c) _ _)

/-! ### Sequences of transactions -/

/-- Transactions are applied one after another, whether or not they raise: their outcomes. -/
def updates (c : Bool) : List (TokenTxn × Updater) → Py (Stores P) (List (Except PyErr Unit))
  | [] => pure []
  | e :: es => do
    let outcome ← attempt (update e.2 e.1 c)
    let outcomes ← updates c es
    pure (outcome :: outcomes)

/-- A sequence of transactions with two choices of handlers. -/
structure Choice where
  txn : TokenTxn
  updater : Updater
  updater' : Updater

/-- The addresses are valid, and the choices differ in the handler of transfers only. -/
def Choice.Ok (P : Platform) (e : Choice) : Prop :=
  (∀ i ∈ e.txn.inputs, ValidAddress P i.address) ∧ EitherWay e.updater e.updater'

theorem sim_updates_same (c : Bool) {es : List Choice} (h : ∀ e ∈ es, e.Ok P) :
    Sim (Same (P := P)) (updates c (es.map fun e => (e.txn, e.updater)))
      (updates c (es.map fun e => (e.txn, e.updater'))) := by
  induction es with
  | nil => exact sim_pure _
  | cons e es ih =>
    obtain ⟨ha, hu⟩ := h e List.mem_cons_self
    exact (sim_update_same c (fun i hi => (ha i hi).colon_notMem) hu).attempt.bind fun _ =>
      (ih fun e' he' => h e' (List.mem_cons_of_mem _ he')).bind fun _ => sim_pure _

/-! ### What GET_UTXO shows -/

/-- A tombstone is skipped. -/
theorem outputOfEntry_blank {k : Str} (h : IsKey k) : outputOfEntry k [] = .ok none := by
  obtain ⟨a, s, ha, rfl⟩ := h
  simp only [outputOfEntry, parseStateKey_createStateKey ha, if_true]

open Classical in
/-- The loop does not see tombstones. -/
theorem addOutputs_filter (rv : List (Str × Str)) (outputs : List Output) :
    addOutputs rv outputs = addOutputs (rv.filter fun e => ¬(IsKey e.1 ∧ e.2 = [])) outputs := by
  induction rv generalizing outputs with
  | nil => rfl
  | cons e rv ih =>
    obtain ⟨k, v⟩ := e
    by_cases hb : IsKey k ∧ v = []
    · obtain ⟨hk, rfl⟩ := hb
      have hskip : addOutputs ((k, []) :: rv) outputs = addOutputs rv outputs := by
        simp only [addOutputs, outputOfEntry_blank hk]
        rfl
      rw [hskip, ih, List.filter_cons_of_neg (by simpa using hk)]
    · rw [List.filter_cons_of_pos (p := fun e : Str × Str => ¬(IsKey e.1 ∧ e.2 = []))
        (decide_eq_true hb)]
      simp only [addOutputs, ← ih]

open Classical in
/-- The entries that are no tombstones are the same. -/
theorem filter_entries (N : ReadNode P) {ρ ρ' : P.state.Root}
    (h : SameButBlank (P.state.lookup ρ) (P.state.lookup ρ')) (address : Str) :
    (N.reads.entries ρ address).filter (fun e => ¬(IsKey e.1 ∧ e.2 = [])) =
      (N.reads.entries ρ' address).filter (fun e => ¬(IsKey e.1 ∧ e.2 = [])) := by
  have hmem : ∀ ρ e, e ∈ (N.reads.entries ρ address).filter (fun e => ¬(IsKey e.1 ∧ e.2 = [])) ↔
      address <+: e.1 ∧ P.state.lookup ρ e.1 = some e.2 ∧ ¬(IsKey e.1 ∧ e.2 = []) := by
    intro ρ e
    rw [List.mem_filter, decide_eq_true_eq, N.reads.mem_entries, and_assoc]
  have hone : ∀ ρ ρ' e, SameButBlank (P.state.lookup ρ) (P.state.lookup ρ') →
      e ∈ (N.reads.entries ρ address).filter (fun e => ¬(IsKey e.1 ∧ e.2 = [])) →
      e ∈ (N.reads.entries ρ' address).filter (fun e => ¬(IsKey e.1 ∧ e.2 = [])) := by
    intro ρ ρ' e hs he
    obtain ⟨hpre, hv, hb⟩ := (hmem ρ e).mp he
    refine (hmem ρ' e).mpr ⟨hpre, ?_, hb⟩
    rcases hs e.1 with heq | ⟨hblank, -, hkey⟩
    · rw [← heq, hv]
    · rw [Blank, hv] at hblank
      exact absurd ⟨hkey, hblank⟩ hb
  have hsymm : SameButBlank (P.state.lookup ρ') (P.state.lookup ρ) := fun k =>
    (h k).imp Eq.symm fun ⟨hb, hb', hk⟩ => ⟨hb', hb, hk⟩
  have hord : ∀ ρ, ((N.reads.entries ρ address).filter fun e => ¬(IsKey e.1 ∧ e.2 = [])).Pairwise
      fun e f => N.reads.before e.1 f.1 := fun ρ =>
    (N.reads.entries_sorted ρ address).sublist List.filter_sublist
  exact eq_of_before N.reads (hord ρ) (hord ρ') fun e => ⟨hone ρ ρ' e h, hone ρ' ρ e hsymm⟩

/-- The outputs and the next number in a reply. -/
def shown (reply : List (Str × Json)) : Option Json × Option Json :=
  (Json.field reply "outputs", Json.field reply "next")

/-- What GET_UTXO shows depends on what the loop over the entries gives. -/
theorem shown_getResult_of_eq (N : ReadNode P) {state state' : P.state.Carrier} {r : ReadRequest}
    (h : ∀ v, getItem r.operation "address" = .ok v →
      addOutputs (N.reads.entries (P.state.headHash state) ((asStr v).getD [])) [] =
        addOutputs (N.reads.entries (P.state.headHash state') ((asStr v).getD [])) []) :
    (getResult N state r).map shown = (getResult N state' r).map shown := by
  have hshown : ∀ d p p', shown (attach N d p) = shown (attach N d p') := fun d p p' => by
    simp only [shown, field_attach (show ("outputs" : Str) ≠ "state_proof" by decide),
      field_attach (show ("next" : Str) ≠ "state_proof" by decide)]
  unfold getResult
  rcases hv : getItem r.operation "address" with e | v
  · rfl
  · simp only [bind, Except.bind, h v hv]
    rcases addOutputs (N.reads.entries (P.state.headHash state') ((asStr v).getD [])) [] with e | L
    · rfl
    · exact congrArg Except.ok (hshown _ _ _)

/-- **What GET_UTXO shows is the same.** -/
theorem shown_getResult (N : ReadNode P) {s t : Stores P} (h : Same s t) (r : ReadRequest) :
    (getResult N s.tokenState r).map shown = (getResult N t.tokenState r).map shown :=
  shown_getResult_of_eq N fun _ _ => by
    rw [addOutputs_filter, filter_entries N h.2, ← addOutputs_filter]

/-! ### The old handler and the new one -/

/-- A value, where it is not empty. -/
def present (m : Str → Option Str) (k : Str) : Option Str := (m k).filter (· ≠ [])

theorem present_eq {m m' : Str → Option Str} (h : SameButBlank m m') (k : Str) :
    present m k = present m' k := by
  have hblank : ∀ x : Option Str, x.getD [] = [] → x.filter (· ≠ []) = none := by
    rintro (_ | x) hx
    · rfl
    · simpa [Option.filter] using hx
  unfold present
  rcases h k with heq | ⟨hb, hb', -⟩
  · rw [heq]
  · rw [hblank _ hb, hblank _ hb']

/-- **The old and the new transfer handler cannot be told apart**, after any number of transactions of
a sequence, whichever of them each transfer goes through. -/
theorem handlers_agree (c : Bool) (s : Stores P) {es : List Choice} (hes : ∀ e ∈ es, e.Ok P) (k : ℕ) :
    let run := updates c ((es.take k).map fun e => (e.txn, e.updater)) s
    let run' := updates c ((es.take k).map fun e => (e.txn, e.updater')) s
    run'.1 = run.1 ∧ P.cache.contents run'.2.utxoCache = P.cache.contents run.2.utxoCache ∧
      (∀ key, present (P.state.lookup (P.state.headHash run'.2.tokenState)) key =
        present (P.state.lookup (P.state.headHash run.2.tokenState)) key) ∧
      ∀ (N : ReadNode P) r, (getResult N run'.2.tokenState r).map shown =
        (getResult N run.2.tokenState r).map shown := by
  intro run run'
  obtain ⟨hout, hsame⟩ := sim_updates_same c (fun e he => hes e (List.take_subset _ _ he)) s s
    ⟨rfl, fun _ => Or.inl rfl⟩
  exact ⟨hout, hsame.1.symm, fun key => (present_eq hsame.2 key).symm,
    fun N r => (shown_getResult N hsame r).symm⟩

/-- A mint and a transfer of its output, by the new handler or by the old. -/
def mintAndPass : List Choice :=
  [⟨mintTxn (request (.mint []) none) [⟨alice.address, .int 5⟩] 0 1, .mint, .mint⟩,
    ⟨xferTxn (request (.mint []) none) [⟨alice.address, .int 1⟩] [⟨bob.address, .int 5⟩] [] 0 2,
      .xfer, .xfer100⟩]

theorem handlers_agree_mintAndPass :
    let run := updates (P := ref) false ((mintAndPass.take 2).map fun e => (e.txn, e.updater)) .new
    let run' := updates (P := ref) false ((mintAndPass.take 2).map fun e => (e.txn, e.updater')) .new
    run'.1 = run.1 ∧ ref.cache.contents run'.2.utxoCache = ref.cache.contents run.2.utxoCache ∧
      (∀ key, present (ref.state.lookup (ref.state.headHash run'.2.tokenState)) key =
        present (ref.state.lookup (ref.state.headHash run.2.tokenState)) key) ∧
      ∀ (N : ReadNode ref) r, (getResult N run'.2.tokenState r).map shown =
        (getResult N run.2.tokenState r).map shown :=
  handlers_agree false .new (by
    intro e he
    simp only [mintAndPass, List.mem_cons, List.not_mem_nil, or_false] at he
    rcases he with rfl | rfl
    · exact ⟨by simp [mintTxn], Or.inl rfl⟩
    · exact ⟨by decide +kernel, Or.inr (by decide)⟩) 2

end TokenPlugin.Properties.Tombstones
